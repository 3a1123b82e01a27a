import DistributedPis.Pi.HeapSteps

/-! The byte level table refines the family of receivers, for every set of senders whose initial
`msg_t` do not overlap: `init_fileTable` gives each one 4 bytes, rounded up, for its 20. -/
namespace DistributedPis
open Library

/-- The senders in `S` have their first `msg_t` to themselves: the records lie `round 4` bytes
apart, and none of the 20 bytes of a record lies in another one or behind the last allocation. -/
structure Apart (h : Heap) (S : Fin 17 → Prop) : Prop where
  apart : ∀ i j, S i → S j → i.val < j.val → h.round sizeofPtr * i + 20 ≤ h.round sizeofPtr * j
  inside : ∀ i, S i → h.round sizeofPtr * i + 20 ≤ h.round sizeofPtr * 17

lemma Apart.not_special {h : Heap} {S : Fin 17 → Prop} (hS : Apart h S) : ¬ S 16 := by
  intro h16
  have hin := hS.inside 16 h16
  have hr := h.round_lt sizeofPtr
  have hs : sizeofPtr = 4 := rfl
  have h16' : ((16 : Fin 17) : ℕ) = 16 := rfl
  rw [h16'] at hin
  omega

/-- The table stands for the receivers of the senders in `S`. -/
structure Sim (h : Heap) (S : Fin 17 → Prop) (s : Board) (o : Owner) (rs : Fin 17 → Receiver) :
    Prop where
  entries : ∀ i, S i → ∃ a ids, EntryMem s o i a ids (rs i)
  free : Free h o s
  special : o (s.fdAddr 16 + 16) = some (16,.fd)

section Init
variable {h : Heap} {base : ℕ}

/-- The memory after `n` rounds of the loop in `init_fileTable`. -/
structure InitMem (h : Heap) (base n : ℕ) (s : Board) : Prop where
  fileTable : s.fileTable = base
  brk : s.brk = base + h.round 340 + h.round 4 * n
  limit : s.brk ≤ h.limit
  curMsg : ∀ i < n, s.get32 (base+20*i) = base + h.round 340 + h.round 4 * i
  status : ∀ i < n, s.mem (base+20*i+16) = none4
  queue : ∀ i < 17, ∀ k, 4 ≤ k → k < 16 → s.mem (base+20*i+k) = 0
  records : ∀ x, base + h.round 340 ≤ x → x < s.brk → s.mem x = 0

lemma mem_fill_zero {m : ℕ → UInt8} {a n x : ℕ} (hx : m x = 0) :
    fill m a (List.replicate n 0) x = 0 := by
  by_cases hin : InBlock a n x
  · have hk : x = a+(x-a) := by unfold InBlock at hin; omega
    rw [hk, fill_inside (by simp; unfold InBlock at hin; omega)]
    simp
  · rw [fill_outside (by simpa using hin), hx]

lemma mem_set32_zero {s : Board} {a x : ℕ} (hx : s.mem x = 0) : (s.set32 a 0).mem x = 0 :=
  mem_fill_zero (n := 4) hx

lemma mem_set8_zero {s : Board} {a x : ℕ} (hx : s.mem x = 0) : (s.set8 a 0).mem x = 0 :=
  mem_fill_zero (n := 1) hx

/-- The zeros that `initEntry` writes into a fresh record. -/
def clearRecord (s : Board) (d : ℕ) : Board :=
  ((((s.set8 d 0).set8 (d+1) 0).set32 (d+4) 0).set32 (d+8) 0).set32 (d+12) 0

lemma clearRecord_spec (s : Board) (d : ℕ) :
    (∀ x, x < d → (clearRecord s d).mem x = s.mem x) ∧
      ∀ x, s.mem x = 0 → (clearRecord s d).mem x = 0 := by
  refine ⟨fun x hx => ?_, fun x hx => ?_⟩
  · have h8 : ∀ (t : Board) a, d ≤ a → (t.set8 a 0).mem x = t.mem x :=
      fun t a ha => write8_outside 0 (by omega)
    simp (disch := omega) only [clearRecord, Board.mem_set32_of_ne, h8]
  · exact mem_set32_zero (mem_set32_zero (mem_set32_zero (mem_set8_zero (mem_set8_zero hx))))

/-- What one round writes: a record behind the heap, its address and the empty status. -/
lemma initEntry_spec {n : ℕ} {s s' : Board} (hn : base+20*n+20 ≤ s.brk) (hf : s.fileTable = base)
    (hs : s.initEntry h n = some s') :
    s'.fileTable = base ∧ s'.brk = s.brk + h.round 4 ∧ s'.brk ≤ h.limit ∧
      s'.get32 (base+20*n) = s.brk ∧ s'.mem (base+20*n+16) = none4 ∧
      (∀ x, x < s.brk → x ≠ base+20*n+16 → x < base+20*n ∨ base+20*n+4 ≤ x →
        s'.mem x = s.mem x) ∧
      ∀ x, s.brk ≤ x → x < s'.brk → s'.mem x = 0 := by
  unfold Board.initEntry at hs
  obtain ⟨⟨d,s₁⟩,hk,hs⟩ := Option.bind_eq_some_iff.mp hs
  obtain ⟨hmem,_,hfile,_,rfl,_,hlim⟩ := kmalloc_frame hk
  obtain ⟨_,hs₁,_⟩ := kmalloc_eq_some hk
  have hbrk : s₁.brk = s.brk + h.round 4 := by rw [hs₁]; rfl
  obtain ⟨hcmem,hczero⟩ := clearRecord_spec s₁ s.brk
  have hs' : ((clearRecord s₁ s.brk).set32 (base+20*n) s.brk).set8 (base+20*n+16) none4 = s' := by
    have hfd : (clearRecord s₁ s.brk).fdAddr n = base+20*n := by
      rw [Board.fdAddr]
      change s₁.fileTable + _ = _
      rw [hfile, hf]
      rfl
    rw [← hfd]
    exact Option.some.inj hs
  have hlt := h.limit_lt
  have hother : ∀ x, x ≠ base+20*n+16 → x < base+20*n ∨ base+20*n+4 ≤ x →
      s'.mem x = (clearRecord s₁ s.brk).mem x := by
    intro x hx hx'
    rw [← hs']
    exact (write8_outside _ hx).trans (Board.mem_set32_of_ne _ hx')
  refine ⟨hs' ▸ hfile.trans hf, hs' ▸ hbrk, hs' ▸ hlim, ?_, ?_, fun x hx hx' hx'' => ?_,
    fun x hx hx' => ?_⟩
  · rw [← hs', Board.get32_set8_of_ne _ (by omega), Board.get32_set32, Nat.mod_eq_of_lt (by omega)]
  · rw [← hs', Board.mem_set8]
  · rw [hother x hx' hx'', hcmem x hx, hmem x hx]
  · have hx₁ : x < s₁.brk := by
      rw [← hs'] at hx'
      exact hx'
    rw [hother x (by omega) (by omega)]
    apply hczero
    rw [← Nat.add_sub_cancel' hx]
    exact kmalloc_zero hk (by change _ < h.round 4; omega)

lemma initEntry_mem {n : ℕ} {s s' : Board} (hn : n < 17) (hi : InitMem h base n s)
    (hs : s.initEntry h n = some s') : InitMem h base (n+1) s' := by
  have hround := h.le_round 340
  have hb := hi.brk
  obtain ⟨hfile,hbrk,hlim,hcur,hstatus,hmem,hzero⟩ :=
    initEntry_spec (by omega) hi.fileTable hs
  have hkeep : ∀ x, x < base+340 → x ≠ base+20*n+16 → x < base+20*n ∨ base+20*n+4 ≤ x →
      s'.mem x = s.mem x := fun x hx => hmem x (by omega)
  refine ⟨hfile, ?_, hlim, fun i hin => ?_, fun i hin => ?_, fun i hi' k hk₁ hk₂ => ?_,
    fun x hx hx' => ?_⟩
  · rw [hbrk, hb, Nat.mul_succ]
    omega
  · rcases Nat.lt_succ_iff_lt_or_eq.mp hin with hin | rfl
    · rw [← hi.curMsg i hin]
      exact read32_congr (fun k hk => hkeep _ (by omega) (by omega) (by omega))
    · rw [hcur, hb]
  · rcases Nat.lt_succ_iff_lt_or_eq.mp hin with hin | rfl
    · rw [← hi.status i hin]
      exact hkeep _ (by omega) (by omega) (by omega)
    · exact hstatus
  · rw [hkeep _ (by omega) (by omega) (by omega)]
    exact hi.queue i hi' k hk₁ hk₂
  · by_cases hxd : x < s.brk
    · rw [hmem x hxd (by omega) (by omega)]
      exact hi.records x hx hxd
    · exact hzero x (by omega) hx'

lemma initLoop_mem (n : ℕ) {s s' : Board} (hn : n ≤ 17) (hi : InitMem h base 0 s)
    (hs : (List.range n).foldlM (fun s i => Board.initEntry h i s) s = some s') :
    InitMem h base n s' := by
  induction n generalizing s' with
  | zero => cases hs; exact hi
  | succ n ih =>
    rw [List.range_succ, List.foldlM_append] at hs
    obtain ⟨s₁,hs₁,hs⟩ := Option.bind_eq_some_iff.mp hs
    have hs : s₁.initEntry h n = some s' := by simpa using hs
    exact initEntry_mem hn (ih (Nat.le_of_succ_le hn) hs₁) hs

theorem initFileTable_mem {junk : ℕ → UInt8} {s : Board}
    (hs : Board.initFileTable h junk base = some s) : InitMem h base 17 s := by
  unfold Board.initFileTable at hs
  obtain ⟨⟨d,s₁⟩,hk,hs⟩ := Option.bind_eq_some_iff.mp hs
  obtain ⟨rfl,rfl,hlim⟩ := kmalloc_eq_some hk
  refine initLoop_mem 17 le_rfl ⟨rfl, rfl, hlim, by simp, by simp, fun i hi k hk₁ hk₂ => ?_, ?_⟩ hs
  · have hround := h.le_round 340
    have hz := kmalloc_zero hk (k := 20*i+k) (by change _ < h.round 340; omega)
    rw [Nat.add_assoc]
    exact hz
  · intro x hx hx'
    exact absurd (Nat.lt_of_lt_of_le hx' hx) (Nat.lt_irrefl _)

/-- The address of the first `msg_t` of entry `i`. -/
def recordAddr (h : Heap) (base : ℕ) (i : Fin 17) : ℕ := base + h.round 340 + h.round 4 * i

open Classical in
/-- The owners after `init_fileTable`: every entry has its `fd`, those in `S` their record. -/
noncomputable def initOwner (h : Heap) (S : Fin 17 → Prop) (base : ℕ) : Owner := fun x =>
  if hx : base ≤ x ∧ x < base+340 then some (⟨(x-base)/20, by omega⟩, .fd)
  else if hx : ∃ i, S i ∧ InBlock (recordAddr h base i) 20 x then
    some (hx.choose, .msg (recordAddr h base hx.choose))
  else none

section Owner
variable {S : Fin 17 → Prop}

lemma initOwner_fd (i : Fin 17) : Owns (initOwner h S base) (i,.fd) (base+20*i) 20 := by
  intro k hk
  have hiv := i.isLt
  have hin : base ≤ base+20*i+k ∧ base+20*i+k < base+340 := by omega
  rw [initOwner, dif_pos hin]
  congr 3
  omega

lemma record_unique (hS : Apart h S) {i j : Fin 17} {x : ℕ} (hi : S i) (hj : S j)
    (hxi : InBlock (recordAddr h base i) 20 x) (hxj : InBlock (recordAddr h base j) 20 x) :
    i = j := by
  simp only [InBlock, recordAddr] at hxi hxj
  rcases Nat.lt_trichotomy i.val j.val with hlt | heq | hgt
  · have := hS.apart i j hi hj hlt
    simp only [sizeofPtr] at this
    omega
  · exact Fin.ext heq
  · have := hS.apart j i hj hi hgt
    simp only [sizeofPtr] at this
    omega

lemma initOwner_msg (hS : Apart h S) {i : Fin 17} (hi : S i) :
    Owns (initOwner h S base) (i,.msg (recordAddr h base i)) (recordAddr h base i) 20 := by
  intro k hk
  have hround := h.le_round 340
  have hout : ¬ (base ≤ recordAddr h base i + k ∧ recordAddr h base i + k < base+340) := by
    unfold recordAddr; omega
  have hin : InBlock (recordAddr h base i) 20 (recordAddr h base i + k) := by
    unfold InBlock; omega
  have hex : ∃ j, S j ∧ InBlock (recordAddr h base j) 20 (recordAddr h base i + k) := ⟨i,hi,hin⟩
  have hij := record_unique hS hex.choose_spec.1 hi hex.choose_spec.2 hin
  rw [initOwner, dif_neg hout, dif_pos hex, hij]

lemma initOwner_free (hS : Apart h S) {x : ℕ} (hx : base + h.round 340 + h.round 4 * 17 ≤ x) :
    initOwner h S base x = none := by
  have hround := h.le_round 340
  have hout : ¬ (base ≤ x ∧ x < base+340) := by omega
  have hno : ¬ ∃ i, S i ∧ InBlock (recordAddr h base i) 20 x := by
    rintro ⟨i,hi,hxi⟩
    have hin := hS.inside i hi
    simp only [sizeofPtr] at hin
    simp only [InBlock, recordAddr] at hxi
    omega
  rw [initOwner, dif_neg hout, dif_neg hno]

end Owner

lemma get32_zero {s : Board} {a : ℕ} (hz : ∀ k < 4, s.mem (a+k) = 0) : s.get32 a = 0 := by
  have h0 : s.mem a = 0 := hz 0 (by decide)
  rw [Board.get32, read32, h0, hz 1 (by decide), hz 2 (by decide), hz 3 (by decide)]
  rfl

/-- A sender whose record lies inside the allocations starts with a fresh receiver. -/
lemma InitMem.entry {S : Fin 17 → Prop} {s : Board} {i : Fin 17} (hi : InitMem h base 17 s)
    (hS : Apart h S) (hSi : S i) (hbase : 0 < base) :
    EntryMem s (initOwner h S base) i (recordAddr h base i) [] .init := by
  have hiv := i.isLt
  have hlt := h.limit_lt
  have hlim := hi.limit
  have hb := hi.brk
  have hin := hS.inside i hSi
  simp only [sizeofPtr] at hin
  have hfd : s.fdAddr i = base+20*i := by rw [Board.fdAddr, hi.fileTable]; rfl
  have hrec : ∀ k < 20, s.mem (recordAddr h base i + k) = 0 := fun k hk =>
    hi.records _ (by unfold recordAddr; omega) (by unfold recordAddr; omega)
  have hrec32 : ∀ d ≤ 16, s.get32 (recordAddr h base i + d) = 0 := fun d hd =>
    get32_zero (fun k hk => by rw [Nat.add_assoc]; exact hrec _ (by omega))
  have hq32 : ∀ d, 4 ≤ d → d ≤ 12 → s.get32 (base+20*i+d) = 0 := fun d hd hd' =>
    get32_zero (fun k hk => by
      rw [Nat.add_assoc]; exact hi.queue i hiv _ (by omega) (by omega))
  have hview : s.msgAt (recordAddr h base i) = .zero := by
    have h0 : s.mem (recordAddr h base i) = 0 := hrec 0 (by decide)
    rw [Board.msgAt_of_null (hrec32 12 (by decide)), h0, hrec32 4 (by decide),
      hrec32 8 (by decide)]
    rfl
  have hqueue : s.queue i = .zero := by
    rw [Board.queue, hfd, hq32 4 (by decide) (by decide), hq32 8 (by decide) (by decide),
      hq32 12 (by decide) (by decide)]
    rfl
  refine ⟨hfd ▸ initOwner_fd i, by rw [hfd, hi.curMsg i hiv]; rfl,
    ⟨by unfold recordAddr; omega, by unfold recordAddr; omega, initOwner_msg hS hSi,
      fun hz => absurd (hrec32 12 (by decide)) hz, hview⟩,
    hqueue ▸ .zero, .nil, by simp, by rw [hfd, hi.status i hiv]; rfl, Nat.zero_le _,
    fun hc => by cases hc⟩

/-- The initial table stands for fresh receivers. -/
theorem init_sim {S : Fin 17 → Prop} {junk : ℕ → UInt8} {s : Board} (hS : Apart h S)
    (hbase : 0 < base) (hs : Board.initFileTable h junk base = some s) :
    Sim h S s (initOwner h S base) (fun _ => .init) := by
  have hi := initFileTable_mem hs
  have hfd : s.fdAddr 16 = base+20*(16 : Fin 17) := by rw [Board.fdAddr, hi.fileTable]; rfl
  refine ⟨fun i hSi => ⟨_, [], hi.entry hS hSi hbase⟩,
    ⟨fun x hx => initOwner_free hS (hi.brk ▸ hx), hi.limit⟩, ?_⟩
  rw [hfd]
  exact initOwner_fd 16 16 (by decide)

end Init

section Handler
variable {h : Heap} {S : Fin 17 → Prop} {s s' : Board} {o o' : Owner} {rs : Fin 17 → Receiver}
  {p : Packet}

/-- The packet reaches the `memcpy`. -/
def Stores (p : Packet) (r : Receiver) : Prop :=
  p.isLocal = false ∧ p.isCmd = false ∧ r.cur.hasCmd = true

/-- Receiving the 32 bytes. -/
lemma buffer_spec {buff : ℕ} {s₁ : Board} (hf : Free h o s)
    (hk : s.kmalloc h pktNbytes = some (buff,s₁)) :
    let s₂ := {s₁ with mem := fill s₁.mem buff p.bytes}
    Touches o (fun _ => False) s s₂ ∧ Free h o s₂ ∧ s₂.pcktAt buff = p ∧ buff = s.brk := by
  obtain ⟨_,_,_,_,rfl,hbrk,hlim⟩ := kmalloc_frame hk
  refine ⟨(kmalloc_touches hk hf.fresh).trans (Touches.fill (fun k _ q hq => ?_)),
    ⟨fun x hx => hf.fresh x ((Nat.le_add_right ..).trans (hbrk.trans hx)), hlim⟩, ?_, rfl⟩
  · rw [hf.fresh _ (by omega)] at hq
    cases hq
  · funext k
    have hin : k.val < p.bytes.length := by simp
    refine (fill_inside hin).trans ?_
    simp [Packet.bytes, -List.ofFn_succ]

/-- Everybody but entry `i` keeps its bytes. -/
lemma Sim.update {P : Fin 17 × Part → Prop} {i : Fin 17} {a : ℕ} {ids : List ℕ} {r : Receiver}
    (hsim : Sim h S s o rs) (ht : Touches o P s s') (hP : ∀ q, P q → q.1 = i)
    (ho : Extends o o') (hf : Free h o' s') (he : EntryMem s' o' i a ids r) :
    Sim h S s' o' (Function.update rs i r) := by
  refine ⟨fun j hj => ?_, hf, by rw [ht.fdAddr]; exact ho _ _ hsim.special⟩
  by_cases hji : j = i
  · subst hji
    exact ⟨a, ids, by simpa using he⟩
  · obtain ⟨b,bs,hb⟩ := hsim.entries j hj
    refine ⟨b, bs, ?_⟩
    rw [Function.update_of_ne hji]
    exact hb.frame ht ho (fun t hc => hji (hP _ hc))

/-- The address arithmetic of the copy is right exactly when the packet fits. -/
lemma copy_inBounds_iff {i : Fin 17} {a buff : ℕ} {ids : List ℕ} {r : Receiver}
    (he : EntryMem s o i a ids r) (hc : r.cur.hasCmd = true) (hp : s.pcktAt buff = p) :
    (s.copyOf buff a).InBounds ↔ Fits p r.cur := by
  have hb := he.dataBlock hc
  obtain ⟨_,_,hcur⟩ := he.fields
  have hle := hb.le
  simp only [Copy.InBounds, Board.copyOf, hp, hb.eq, hcur, Fits]
  have hoff : 30*r.cur.curPckts % 2^32 < 2^32 := Nat.mod_lt _ (by decide)
  generalize 30*r.cur.curPckts % 2^32 = off at *
  generalize 30*r.cur.totPckts % 2^32 = size at *
  generalize s.get32 (a+12) = ptr at *
  constructor
  · rintro ⟨⟨_,hn⟩,hdst⟩
    refine ⟨by omega, hdst.imp_right (fun hd => ?_)⟩
    omega
  · rintro ⟨hn,hroom⟩
    refine ⟨by omega, ?_⟩
    rcases Nat.eq_zero_or_pos p.nbytes with hz | hpos
    · exact Or.inl hz
    · have hd := hroom.resolve_left (by omega)
      exact Or.inr (by omega)

lemma Free.of_brk (hf : Free h o s) (hb : s'.brk = s.brk) : Free h o s' :=
  ⟨fun x hx => hf.fresh x (hb ▸ hx), hb ▸ hf.limit⟩

/-- The copy that is reported, against the copy that the receiver asks for. -/
def Reported (p : Packet) (r : Receiver) (c : Option Copy) : Prop :=
  (Stores p r → ∃ d, c = some d ∧ (d.InBounds ↔ Fits p r.cur)) ∧ (¬ Stores p r → c = none)

lemma reported_none {r : Receiver} (h : ¬ Stores p r) : Reported p r none :=
  ⟨fun hc => absurd hc h, fun _ => rfl⟩

/-- A status from the local ESP. -/
lemma handlePckt_local {c : Option Copy} {buff : ℕ} (hsim : Sim h S s o rs) (hS : Apart h S)
    (hb : s.pcktAt buff = p) (hl : p.isLocal = true) (hs : s.handlePckt h buff = some (s',c)) :
    Reported p (rs p.fd) c ∧ Sim h S s' o (Function.update rs p.fd ((rs p.fd).step p)) := by
  have hfd : p.fd = 16 := by simp [Packet.fd, hl]
  rw [Board.handlePckt, hb, if_pos hl] at hs
  obtain ⟨rfl,rfl⟩ := Prod.mk.inj (Option.some.inj hs)
  have ht : Touches o (· = (16,.fd)) s (s.set8 (s.fdAddr maxFiles + 16) p.cmnd) :=
    Touches.set8 _ (fun k hk => by
      obtain rfl := Nat.lt_one_iff.mp hk
      exact hsim.special) rfl
  refine ⟨reported_none (fun hc => by rw [hc.1] at hl; cases hl), fun i hi => ?_, hsim.free.of_brk rfl,
    ?_⟩
  · have hne : i ≠ p.fd := by
      rintro rfl
      rw [hfd] at hi
      exact hS.not_special hi
    obtain ⟨a,ids,he⟩ := hsim.entries i hi
    refine ⟨a, ids, ?_⟩
    rw [Function.update_of_ne hne]
    refine he.frame ht (.refl o) (fun t hc => ?_)
    rw [hfd] at hne
    exact hne (Prod.mk.inj hc).1
  · exact hsim.special

section Sender
variable {c : Option Copy} {i : Fin 17} {a buff : ℕ} {ids : List ℕ}

/-- What the handler does with a command packet of entry `i`. -/
def onCommand (h : Heap) (buff fds msg : ℕ) (p : Packet) (s : Board) :
    Option (Board × Option Copy) :=
  if p.isAck then some (s.set8 (fds+16) p.cmnd, none)
  else if s.mem msg ≠ 0 then some (s.closeMsg msg, none)
  else (s.openMsg h buff msg).map (fun s => (s,none))

/-- What it does with a data packet. -/
def onData (h : Heap) (buff fds msg : ℕ) (s : Board) : Option (Board × Option Copy) :=
  if s.mem msg = 0 then some (s.rejectMsg msg, none)
  else
    let copy := s.copyOf buff msg
    let s := s.storeMsg buff msg
    if s.get32 (msg+8) = s.get32 (msg+4) then (s.addMsg h fds).map (fun s => (s,some copy))
    else some (s, some copy)

lemma handlePckt_eq (hb : s.pcktAt buff = p) (hl : p.isLocal = false) :
    s.handlePckt h buff =
      if p.isCmd then onCommand h buff (s.fdAddr p.fd) (s.get32 (s.fdAddr p.fd)) p s
      else onData h buff (s.fdAddr p.fd) (s.get32 (s.fdAddr p.fd)) s := by
  have hfd : s.fdAddr p.espFrom = s.fdAddr p.fd := by simp [Packet.fd, hl]
  rw [Board.handlePckt, hb, if_neg (by simp [hl]), hfd]
  rfl

lemma hasCmd_iff (he : EntryMem s o i a ids (rs i)) : s.mem a ≠ 0 ↔ (rs i).cur.hasCmd = true := by
  rw [← he.fields.1, bne_iff_ne]

lemma onCommand_sim (hsim : Sim h S s o rs) (he : EntryMem s o i a ids (rs i))
    (hb : s.pcktAt buff = p) (hbuff : a < buff)
    (hs : onCommand h buff (s.fdAddr i) a p s = some (s',c)) :
    c = none ∧ ∃ o', Sim h S s' o' (Function.update rs i
      (if p.isAck then {rs i with status := p.cmnd} else {rs i with cur := (rs i).cur.openCmd p})) := by
  unfold onCommand at hs
  have hcur : ∀ q, IsCur i a q → q.1 = i := by rintro q (rfl | rfl) <;> rfl
  by_cases hack : p.isAck = true
  · rw [if_pos hack] at hs ⊢
    obtain ⟨rfl,rfl⟩ := Prod.mk.inj (Option.some.inj hs)
    obtain ⟨ht,he'⟩ := he.setStatus p.cmnd
    exact ⟨rfl, o, hsim.update ht (by rintro q rfl; rfl) (.refl o) (hsim.free.of_brk rfl) he'⟩
  rw [if_neg hack] at hs ⊢
  by_cases ho : (rs i).cur.hasCmd = true
  · rw [if_pos ((hasCmd_iff he).mpr ho)] at hs
    obtain ⟨rfl,rfl⟩ := Prod.mk.inj (Option.some.inj hs)
    obtain ⟨ht,he'⟩ := he.close
    have hopen : (rs i).cur.openCmd p = .zero := by simp [MsgT.openCmd, ho]
    rw [hopen]
    exact ⟨rfl, o, hsim.update ht hcur (.refl o) (hsim.free.of_brk rfl) he'⟩
  · rw [if_neg (fun hc => ho ((hasCmd_iff he).mp hc))] at hs
    obtain ⟨s₁,hs₁,hs⟩ := Option.map_eq_some_iff.mp hs
    obtain ⟨rfl,rfl⟩ := Prod.mk.inj hs
    obtain ⟨o',hext,hf,ht,he'⟩ := he.openMsg hsim.free hbuff hb (by simpa using ho) hs₁
    exact ⟨rfl, o', hsim.update ht hcur hext hf he'⟩

/-- The step of a receiver on a data packet. -/
def dataStep (p : Packet) (r : Receiver) : Receiver :=
  if ¬ r.cur.hasCmd then {r with cur := r.cur.reject}
  else if (r.cur.store p).curPckts = (r.cur.store p).totPckts then
    {r with cur := .zero, queue := r.cur.store p :: r.queue}
  else {r with cur := r.cur.store p}

lemma onData_sim (hsim : Sim h S s o rs) (he : EntryMem s o i a ids (rs i))
    (hb : s.pcktAt buff = p) (hs : onData h buff (s.fdAddr i) a s = some (s',c)) :
    (c = if (rs i).cur.hasCmd then some (s.copyOf buff a) else none) ∧
      (((rs i).cur.hasCmd = true → Fits p (rs i).cur) →
        ∃ o', Sim h S s' o' (Function.update rs i (dataStep p (rs i)))) := by
  unfold onData at hs
  unfold dataStep
  have hcur : ∀ q, IsCur i a q → q.1 = i := by rintro q (rfl | rfl) <;> rfl
  by_cases ho : (rs i).cur.hasCmd = true
  · rw [if_neg ((hasCmd_iff he).mpr ho)] at hs
    rw [if_pos ho, if_neg (not_not_intro ho)]
    dsimp only at hs
    refine ⟨?_, fun hfit => ?_⟩
    · split at hs
      · obtain ⟨s₁,_,hs⟩ := Option.map_eq_some_iff.mp hs
        exact (Prod.mk.inj hs).2.symm
      · exact (Prod.mk.inj (Option.some.inj hs)).2.symm
    · obtain ⟨ht,he'⟩ := he.store hb ho (hfit ho)
      obtain ⟨_,htot,hcnt⟩ := he'.fields
      have hf' : Free h o (s.storeMsg buff a) := hsim.free.of_brk rfl
      rw [htot, hcnt] at hs
      dsimp only at hs
      by_cases hd : ((rs i).cur.store p).curPckts = ((rs i).cur.store p).totPckts
      · rw [if_pos hd] at hs ⊢
        obtain ⟨s₁,hs₁,hs⟩ := Option.map_eq_some_iff.mp hs
        obtain ⟨rfl,rfl⟩ := Prod.mk.inj hs
        rw [← ht.fdAddr] at hs₁
        obtain ⟨o',a',hext,hf,ht',he''⟩ := he'.addMsg hf' hs₁
        have ht₂ : Touches o (fun q => q.1 = i) s s₁ := (ht.mono hcur).trans
          (ht'.mono (by rintro q (rfl | rfl) <;> rfl))
        exact ⟨o', hsim.update ht₂ (fun _ => id) hext hf he''⟩
      · rw [if_neg hd] at hs ⊢
        obtain ⟨rfl,rfl⟩ := Prod.mk.inj (Option.some.inj hs)
        exact ⟨o, hsim.update ht hcur (.refl o) hf' he'⟩
  · rw [if_pos (not_not.mp (fun hc => ho ((hasCmd_iff he).mp hc)))] at hs
    obtain ⟨rfl,rfl⟩ := Prod.mk.inj (Option.some.inj hs)
    rw [if_neg ho, if_pos ho]
    obtain ⟨ht,he'⟩ := he.reject (by simpa using ho)
    exact ⟨rfl, fun _ => ⟨o, hsim.update ht hcur (.refl o) (hsim.free.of_brk rfl) he'⟩⟩

end Sender

/-- The handler on a packet of one of the senders in `S`, or on a status from the local ESP. A
`memcpy` is reported exactly when there is an open message, and it is in bounds exactly when the
packet fits; as long as that is so, the receivers take the same step. -/
theorem handler_sim {c : Option Copy} (hsim : Sim h S s o rs) (hS : Apart h S)
    (hp : p.isLocal = true ∨ S p.fd) (hs : s.recieveMsgHandler h p = some (s',c)) :
    Reported p (rs p.fd) c ∧ ((Stores p (rs p.fd) → Fits p (rs p.fd).cur) →
      ∃ o', Sim h S s' o' (Function.update rs p.fd ((rs p.fd).step p))) := by
  unfold Board.recieveMsgHandler at hs
  obtain ⟨⟨buff,s₁⟩,hk,hs⟩ := Option.bind_eq_some_iff.mp hs
  obtain ⟨ht₂,hf₂,hpckt,hbuff⟩ := buffer_spec (p := p) hsim.free hk
  dsimp only at hs
  generalize ({s₁ with mem := fill s₁.mem buff p.bytes} : Board) = s₂ at hs ht₂ hf₂ hpckt
  have hsim₂ : Sim h S s₂ o rs := by
    refine ⟨fun i hi => ?_, hf₂, by rw [ht₂.fdAddr]; exact hsim.special⟩
    obtain ⟨a,ids,he⟩ := hsim.entries i hi
    exact ⟨a, ids, he.frame ht₂ (.refl o) (fun _ => id)⟩
  by_cases hl : p.isLocal = true
  · obtain ⟨hrep,hsim'⟩ := handlePckt_local hsim₂ hS hpckt hl hs
    exact ⟨hrep, fun _ => ⟨o,hsim'⟩⟩
  · have hl : p.isLocal = false := by simpa using hl
    obtain ⟨a,ids,he⟩ := hsim₂.entries _ (hp.resolve_left (by simp [hl]))
    have ha : a < buff := hbuff ▸ hsim.free.lt (he.curMsg.record 0 (by decide))
    rw [handlePckt_eq hpckt hl, he.cur] at hs
    by_cases hcmd : p.isCmd = true
    · rw [if_pos hcmd] at hs
      obtain ⟨rfl,hsim'⟩ := onCommand_sim hsim₂ he hpckt ha hs
      refine ⟨reported_none (fun hc => by rw [hc.2.1] at hcmd; cases hcmd), fun _ => ?_⟩
      have hstep : (rs p.fd).step p = if p.isAck then {rs p.fd with status := p.cmnd}
          else {rs p.fd with cur := (rs p.fd).cur.openCmd p} := by
        simp [Receiver.step, hl, hcmd]
      rw [hstep]
      exact hsim'
    · rw [if_neg hcmd] at hs
      have hcmd : p.isCmd = false := by simpa using hcmd
      obtain ⟨rfl,hsim'⟩ := onData_sim hsim₂ he hpckt hs
      have hstep : (rs p.fd).step p = dataStep p (rs p.fd) := by
        simp [Receiver.step, hl, hcmd, dataStep]
      rw [hstep]
      have hst : Stores p (rs p.fd) ↔ (rs p.fd).cur.hasCmd = true := by simp [Stores, hl, hcmd]
      refine ⟨⟨fun hc => ?_, fun hc => ?_⟩, fun hfit => hsim' (fun hc => hfit (hst.mpr hc))⟩
      · have hc := hst.mp hc
        exact ⟨_, if_pos hc, copy_inBounds_iff he hc hpckt⟩
      · exact if_neg (fun h => hc (hst.mpr h))

/-- The memory one packet takes at most. -/
def need (h : Heap) (p : Packet) : ℕ :=
  h.round pktNbytes + if p.isCmd then h.round (30*npckts p.size % 2^32) else h.round sizeofMsg

lemma kmalloc_returns {n : ℕ} (hle : s.brk + h.round n ≤ h.limit) :
    ∃ s', s.kmalloc h n = some (s.brk,s') ∧ s'.brk = s.brk + h.round n :=
  ⟨_, if_pos hle, rfl⟩

lemma addMsg_returns {fds : ℕ} (hle : s.brk + h.round sizeofMsg ≤ h.limit) :
    ∃ s', s.addMsg h fds = some s' ∧ s'.brk = s.brk + h.round sizeofMsg := by
  obtain ⟨s₁,hk,hbrk⟩ := kmalloc_returns hle
  rw [Board.addMsg, hk]
  refine ⟨_, rfl, ?_⟩
  exact (push_rest ..).2.1.trans hbrk

lemma onCommand_returns (fds : ℕ) (hb : s.pcktAt buff = p) (ha : a < buff)
    (hle : s.brk + h.round (30*npckts p.size % 2^32) ≤ h.limit) :
    ∃ s' c, onCommand h buff fds a p s = some (s',c) ∧
      s'.brk ≤ s.brk + h.round (30*npckts p.size % 2^32) := by
  unfold onCommand
  split_ifs
  · exact ⟨_, _, rfl, Nat.le_add_right ..⟩
  · exact ⟨_, _, rfl, Nat.le_add_right ..⟩
  · rw [openMsg_eq ha hb]
    obtain ⟨s₁,hk,hbrk⟩ := kmalloc_returns (s := counted s a (npckts p.size)) hle
    rw [hk]
    exact ⟨_, _, rfl, hbrk.le⟩

lemma onData_returns (s : Board) (buff fds a : ℕ) (hle : s.brk + h.round sizeofMsg ≤ h.limit) :
    ∃ s' c, onData h buff fds a s = some (s',c) ∧ s'.brk ≤ s.brk + h.round sizeofMsg := by
  unfold onData
  dsimp only
  split_ifs
  · exact ⟨_, _, rfl, Nat.le_add_right ..⟩
  · obtain ⟨s₁,hs₁,hbrk⟩ : ∃ s₁, (s.storeMsg buff a).addMsg h fds = some s₁ ∧ _ :=
      addMsg_returns hle
    rw [hs₁]
    exact ⟨_, _, rfl, hbrk.le⟩
  · exact ⟨_, _, rfl, Nat.le_add_right ..⟩

/-- The handler returns as long as there is memory. -/
theorem handler_returns (hsim : Sim h S s o rs) (hp : p.isLocal = true ∨ S p.fd)
    (hle : s.brk + need h p ≤ h.limit) :
    ∃ s' c, s.recieveMsgHandler h p = some (s',c) ∧ s'.brk ≤ s.brk + need h p := by
  have hn1 : h.round pktNbytes ≤ need h p := Nat.le_add_right ..
  obtain ⟨s₁,hk,hbrk⟩ := kmalloc_returns (s := s) (n := pktNbytes) (h := h) (by omega)
  obtain ⟨ht₂,hf₂,hpckt,_⟩ := buffer_spec (p := p) hsim.free hk
  unfold Board.recieveMsgHandler
  rw [hk]
  dsimp only [Option.bind_eq_bind, Option.bind_some]
  have hbrk₂ : ({s₁ with mem := fill s₁.mem s.brk p.bytes} : Board).brk = s.brk + h.round pktNbytes :=
    hbrk
  generalize ({s₁ with mem := fill s₁.mem s.brk p.bytes} : Board) = s₂ at ht₂ hf₂ hpckt hbrk₂ ⊢
  by_cases hl : p.isLocal = true
  · rw [Board.handlePckt, hpckt, if_pos hl]
    exact ⟨_, _, rfl, by change s₂.brk ≤ _; omega⟩
  have hl : p.isLocal = false := by simpa using hl
  obtain ⟨a,ids,he⟩ := hsim.entries _ (hp.resolve_left (by simp [hl]))
  have ha : a < s.brk := hsim.free.lt (he.curMsg.record 0 (by decide))
  have hcur : s₂.get32 (s₂.fdAddr p.fd) = a := (he.frame ht₂ (.refl o) (fun _ => id)).cur
  rw [handlePckt_eq hpckt hl, hcur]
  by_cases hcmd : p.isCmd = true
  · rw [if_pos hcmd]
    have hneed : need h p = h.round pktNbytes + h.round (30*npckts p.size % 2^32) := by
      rw [need, if_pos hcmd]
    obtain ⟨s',c,hs,hle'⟩ := onCommand_returns (h := h) (s₂.fdAddr p.fd) hpckt ha (by omega)
    exact ⟨s', c, hs, by omega⟩
  · rw [if_neg hcmd]
    have hneed : need h p = h.round pktNbytes + h.round sizeofMsg := by
      rw [need, if_neg hcmd]
    obtain ⟨s',c,hs,hle'⟩ := onData_returns (h := h) s₂ s.brk (s₂.fdAddr p.fd) a (by omega)
    exact ⟨s', c, hs, by omega⟩

end Handler
end DistributedPis
