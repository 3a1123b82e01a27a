import DistributedPis.Pi.Layout

/-! The handler's updates of the current message, each one over the bytes of its own entry: the
memory does what the receiver does. -/
namespace DistributedPis
open Library

namespace Board
variable {s : Board} {a d x : ℕ}

@[simp] lemma get32_set32 (s : Board) (a v : ℕ) : (s.set32 a v).get32 a = v % 2^32 :=
  read32_write32 v

lemma get32_set32_of_ne (v : ℕ) (h : d+4 ≤ a ∨ a+4 ≤ d) : (s.set32 a v).get32 d = s.get32 d :=
  read32_write32_of_ne v h

lemma get32_set8_of_ne (v : UInt8) (h : d+4 ≤ a ∨ a+1 ≤ d) : (s.set8 a v).get32 d = s.get32 d :=
  read32_write8_of_ne v h

lemma mem_set32_of_ne (v : ℕ) (h : x < a ∨ a+4 ≤ x) : (s.set32 a v).mem x = s.mem x :=
  write32_outside v h

@[simp] lemma mem_set8 (s : Board) (a : ℕ) (v : UInt8) : (s.set8 a v).mem a = v := write8_self v

lemma get32_lt (s : Board) (a : ℕ) : s.get32 a < 2^32 := read32_lt

/-- A `msg_t` without data. -/
lemma msgAt_of_null (h : s.get32 (a+12) = 0) :
    s.msgAt a = ⟨s.mem a != 0, s.get32 (a+4), s.get32 (a+8), none⟩ := by
  rw [msgAt, if_pos h]

end Board

/-- Everything from the end of the heap on is free. -/
structure Free (h : Heap) (o : Owner) (s : Board) : Prop where
  fresh : ∀ x, s.brk ≤ x → o x = none
  limit : s.brk ≤ h.limit

section Current
variable {h : Heap} {o : Owner} {s : Board} {i : Fin 17} {a : ℕ} {ids : List ℕ} {r : Receiver}

/-- The parts that an update of the current message may write. -/
abbrev IsCur (i : Fin 17) (a : ℕ) (q : Fin 17 × Part) : Prop := q = (i,.msg a) ∨ q = (i,.data a)

lemma Free.lt (hf : Free h o s) {q : Fin 17 × Part} {x : ℕ} (hx : o x = some q) : x < s.brk := by
  by_contra hc
  rw [hf.fresh x (by omega)] at hx
  cases hx

lemma Free.block_le (hf : Free h o s) {q : Fin 17 × Part} {d n : ℕ} (hown : Owns o q d n)
    (hn : 0 < n) : d+n ≤ s.brk := by
  have := hf.lt (hown (n-1) (by omega))
  omega

lemma set32_msg (v : ℕ) {d : ℕ} (hrec : Owns o (i,.msg a) a 20) (hd : d ≤ 16) :
    Touches o (IsCur i a) s (s.set32 (a+d) v) := Touches.set32 v (hrec.sub (by omega)) (Or.inl rfl)

lemma set8_msg (v : UInt8) (hrec : Owns o (i,.msg a) a 20) :
    Touches o (IsCur i a) s (s.set8 a v) :=
  Touches.set8 v (hrec.sub (d := 0) (by decide)) (Or.inl rfl)

lemma clear_touches (hrec : Owns o (i,.msg a) a 20) :
    Touches o (IsCur i a) s (s.rejectMsg a) :=
  ((set32_msg _ hrec (by decide)).trans (set32_msg _ hrec (by decide))).trans
    (set32_msg _ hrec (by decide))

lemma rejectMsg_msgAt (s : Board) (a : ℕ) :
    (s.rejectMsg a).msgAt a = ⟨s.mem a != 0, 0, 0, none⟩ := by
  have hnull : (s.rejectMsg a).get32 (a+12) = 0 := by simp [Board.rejectMsg]
  rw [Board.msgAt_of_null hnull]
  simp (disch := omega) only [Board.rejectMsg, Board.mem_set32_of_ne, Board.get32_set32_of_ne,
    Board.get32_set32, Nat.zero_mod]

/-- Whatever clears count and data leaves no block behind. -/
lemma MsgMem.cleared (hm : MsgMem s o i a r.cur) (b : Bool) {s' : Board}
    (hs : s'.msgAt a = ⟨b,0,0,none⟩) (hnull : s'.get32 (a+12) = 0) :
    MsgMem s' o i a ⟨b,0,0,none⟩ :=
  ⟨hm.pos, hm.lt, hm.record, fun hp => absurd hnull hp, hs⟩

theorem EntryMem.reject (he : EntryMem s o i a ids r) (hc : r.cur.hasCmd = false) :
    Touches o (IsCur i a) s (s.rejectMsg a) ∧
      EntryMem (s.rejectMsg a) o i a ids {r with cur := r.cur.reject} := by
  have hrec := he.curMsg.record
  have hhas : (s.mem a != 0) = r.cur.hasCmd := by rw [← he.curMsg.view]; rfl
  have hview := rejectMsg_msgAt s a
  rw [hhas] at hview
  have ht : Touches o (IsCur i a) s (s.rejectMsg a) := clear_touches hrec
  refine ⟨ht, he.setCur ht (.refl o) (he.curMsg.cleared _ hview (by simp [Board.rejectMsg])) ?_⟩
  intro hopen
  exact absurd (hc.symm.trans hopen) Bool.false_ne_true

theorem EntryMem.close (he : EntryMem s o i a ids r) :
    Touches o (IsCur i a) s (s.closeMsg a) ∧
      EntryMem (s.closeMsg a) o i a ids {r with cur := .zero} := by
  have hrec := he.curMsg.record
  have hcl : s.closeMsg a = (s.set8 a 0).rejectMsg a := rfl
  have ht : Touches o (IsCur i a) s (s.closeMsg a) := (set8_msg 0 hrec).trans (clear_touches hrec)
  have hview : (s.closeMsg a).msgAt a = .zero := by
    rw [hcl, rejectMsg_msgAt, Board.mem_set8]
    rfl
  refine ⟨ht, he.setCur ht (.refl o) (he.curMsg.cleared _ hview (by simp [Board.closeMsg])) ?_⟩
  intro hopen
  cases hopen

/-- A status that arrives for the entry. -/
theorem EntryMem.setStatus (he : EntryMem s o i a ids r) (v : UInt8) :
    Touches o (· = (i,.fd)) s (s.set8 (s.fdAddr i + 16) v) ∧
      EntryMem (s.set8 (s.fdAddr i + 16) v) o i a ids {r with status := v} := by
  have ht : Touches o (· = (i,.fd)) s (s.set8 (s.fdAddr i + 16) v) :=
    Touches.set8 v (he.fd.sub (by decide)) rfl
  generalize hs : s.set8 (s.fdAddr i + 16) v = s' at ht ⊢
  have hget : ∀ d ≤ 12, s'.get32 (s.fdAddr i + d) = s.get32 (s.fdAddr i + d) := fun d hd => by
    rw [← hs, Board.get32_set8_of_ne _ (by omega)]
  have hq : s'.queue i = s.queue i := by
    rw [Board.queue, Board.queue, ht.fdAddr, hget 4 (by decide), hget 8 (by decide),
      hget 12 (by decide)]
  have hmsg : ∀ b, ¬ ((i,Part.msg b) = (i,.fd)) ∧ ¬ ((i,Part.data b) = (i,.fd)) := by simp
  refine ⟨ht, ht.fdAddr i ▸ he.fd, ?_, he.curMsg.frame ht (.refl o) (hmsg a).1 (hmsg a).2,
    hq ▸ he.queue.congr (fun b hb => ?_), he.msgs_frame ht (.refl o) (fun b _ => hmsg b),
    he.apart, ?_, he.room.trans ht.brk,
    fun hc => (he.dataBlock hc).frame he.curMsg.record ht (hmsg a).1⟩
  · rw [ht.fdAddr, ← he.cur]
    exact hget 0 (by decide)
  · obtain ⟨m,hm⟩ := mem_forall₂_left he.msgs hb
    exact next_frame hm ht (hmsg b).1
  · rw [ht.fdAddr, ← hs, Board.mem_set8]

lemma npckts_lt {n : ℕ} (hn : n < 2^32) : npckts n < 2^32 := by
  have h : 30*npckts n < n+30 := mul_pieces_lt 30 n (by decide)
  omega

lemma pcktAt_set8 {buff : ℕ} (v : UInt8) (h : a < buff) :
    (s.set8 a v).pcktAt buff = s.pcktAt buff := by
  funext k
  exact write8_outside v (by omega)

/-- An allocation that touches nothing of the message. -/
lemma kmalloc_frame {s' : Board} {n d : ℕ} (hk : s.kmalloc h n = some (d,s')) :
    (∀ x, x < s.brk → s'.mem x = s.mem x) ∧ (∀ x, x+4 ≤ s.brk → s'.get32 x = s.get32 x) ∧
      s'.fileTable = s.fileTable ∧ s'.dataBlock = s.dataBlock ∧ d = s.brk ∧
      s.brk + n ≤ s'.brk ∧ s'.brk ≤ h.limit := by
  obtain ⟨rfl,rfl,hle⟩ := kmalloc_eq_some hk
  have hround := h.le_round n
  refine ⟨fun x hx => fill_outside (fun hc => ?_), fun x hx => read32_fill (Or.inl hx), rfl, rfl,
    rfl, by dsimp only; omega, hle⟩
  have := hc.1
  omega

/-- The message with its command and counts, before its data block is allocated. -/
def counted (s : Board) (a n : ℕ) : Board := ((s.set8 a 1).set32 (a+4) n).set32 (a+8) 0

/-- The packet and the counts that `openMsg` reads back are the ones it wrote. -/
lemma openMsg_eq {p : Packet} {buff : ℕ} (hbuff : a < buff) (hp : s.pcktAt buff = p) :
    s.openMsg h buff a =
      ((counted s a (npckts p.size)).kmalloc h (30*npckts p.size % 2^32)).map (fun (d,s₂) =>
        {s₂.set32 (a+12) d with
          dataBlock := Function.update s₂.dataBlock a (d, 30*npckts p.size % 2^32)}) := by
  have htot : (((s.set8 a 1).set32 (a+4) (npckts p.size)).set32 (a+8) 0).get32 (a+4) =
      npckts p.size := by
    rw [Board.get32_set32_of_ne _ (by omega), Board.get32_set32,
      Nat.mod_eq_of_lt (npckts_lt p.size_lt)]
  unfold Board.openMsg
  dsimp only
  rw [pcktAt_set8 1 hbuff, hp, htot, Option.map_eq_bind]
  rfl

/-- What `openMsg` leaves in memory. -/
lemma openMsg_spec {p : Packet} {buff : ℕ} {s' : Board} (ha : a+20 ≤ s.brk) (hbuff : a < buff)
    (hp : s.pcktAt buff = p) (hs : s.openMsg h buff a = some s') :
    s'.mem a = 1 ∧ s'.get32 (a+4) = npckts p.size ∧ s'.get32 (a+8) = 0 ∧
      s'.get32 (a+12) = s.brk ∧ s'.dataBlock = Function.update s.dataBlock a
        (s.brk, 30*npckts p.size % 2^32) ∧
      (∀ k < 30*npckts p.size % 2^32, s'.mem (s.brk+k) = 0) ∧
      s.brk + 30*npckts p.size % 2^32 ≤ s'.brk ∧ s'.brk ≤ h.limit := by
  have hsize : npckts p.size < 2^32 := npckts_lt p.size_lt
  rw [openMsg_eq hbuff hp] at hs
  obtain ⟨⟨d,s₂⟩,hk,rfl⟩ := Option.map_eq_some_iff.mp hs
  obtain ⟨hmem,hget,_,hblock,rfl,hbrk,hlim⟩ := kmalloc_frame hk
  have hzero := fun k hk' =>
    kmalloc_zero hk (k := k) (Nat.lt_of_lt_of_le hk' (h.le_round _))
  have hb1 : (counted s a (npckts p.size)).brk = s.brk := rfl
  rw [hb1] at hmem hget hbrk hzero
  have hlt : s.brk < 2^32 := by have := h.limit_lt; omega
  refine ⟨?_, ?_, ?_, ?_, ?_, fun k hk => ?_, hbrk, hlim⟩
  · change (s₂.set32 (a+12) s.brk).mem a = 1
    rw [Board.mem_set32_of_ne _ (by omega), hmem _ (by omega), counted,
      Board.mem_set32_of_ne _ (by omega), Board.mem_set32_of_ne _ (by omega), Board.mem_set8]
  · change (s₂.set32 (a+12) s.brk).get32 (a+4) = _
    rw [Board.get32_set32_of_ne _ (by omega), hget _ (by omega), counted,
      Board.get32_set32_of_ne _ (by omega), Board.get32_set32, Nat.mod_eq_of_lt hsize]
  · change (s₂.set32 (a+12) s.brk).get32 (a+8) = _
    rw [Board.get32_set32_of_ne _ (by omega), hget _ (by omega), counted, Board.get32_set32,
      Nat.zero_mod]
  · change (s₂.set32 (a+12) s.brk).get32 (a+12) = _
    rw [Board.get32_set32, Nat.mod_eq_of_lt hlt]
  · change Function.update s₂.dataBlock a _ = _
    rw [hblock]
    rfl
  · change (s₂.set32 (a+12) s.brk).mem (s.brk+k) = 0
    rw [Board.mem_set32_of_ne _ (by omega)]
    exact hzero k hk

lemma openMsg_touches {p : Packet} {buff : ℕ} {s' : Board} (hrec : Owns o (i,.msg a) a 20)
    (hf : Free h o s) (hbuff : a < buff) (hp : s.pcktAt buff = p)
    (hs : s.openMsg h buff a = some s') : Touches o (IsCur i a) s s' := by
  rw [openMsg_eq hbuff hp] at hs
  obtain ⟨⟨d,s₂⟩,hk,rfl⟩ := Option.map_eq_some_iff.mp hs
  have ht₁ : Touches o (IsCur i a) s (counted s a (npckts p.size)) :=
    ((set8_msg 1 hrec).trans (set32_msg _ hrec (by decide))).trans (set32_msg 0 hrec (by decide))
  have ht₂ : Touches o (IsCur i a) s (s₂.set32 (a+12) d) :=
    (ht₁.trans (kmalloc_touches hk hf.fresh)).trans (set32_msg d hrec (by decide))
  refine ⟨ht₂.mem, ht₂.fileTable, ht₂.brk, fun b j hb hj => ?_⟩
  have hne : b ≠ a := by
    rintro rfl
    have hown : o b = some (i,.msg b) := hrec 0 (by decide)
    rw [hown] at hb
    cases hb
    exact hj (Or.inl rfl)
  rw [← ht₂.dataBlock b j hb hj]
  exact Function.update_of_ne hne _ _

lemma give_free {q : Fin 17 × Part} {s' : Board} {n : ℕ} (hf : Free h o s)
    (hle : s.brk+n ≤ s'.brk) (hlim : s'.brk ≤ h.limit) : Free h (give o q s.brk n) s' :=
  ⟨fun x hx => (give_outside o q (by omega)).trans (hf.fresh x (by omega)), hlim⟩

/-- A command opens a fresh message and gives it a block. -/
theorem EntryMem.openMsg {p : Packet} {buff : ℕ} {s' : Board} (he : EntryMem s o i a ids r)
    (hf : Free h o s) (hbuff : a < buff) (hp : s.pcktAt buff = p) (hc : r.cur.hasCmd = false)
    (hs : s.openMsg h buff a = some s') : ∃ o', Extends o o' ∧ Free h o' s' ∧
      Touches o (IsCur i a) s s' ∧ EntryMem s' o' i a ids {r with cur := r.cur.openCmd p} := by
  have hrec := he.curMsg.record
  have ha := hf.block_le hrec (by decide)
  have ht := openMsg_touches hrec hf hbuff hp hs
  obtain ⟨hmem,htot,hcur,hptr,hblock,hzero,hbrk,hlim⟩ := openMsg_spec ha hbuff hp hs
  have ho : Extends o (give o (i,.data a) s.brk (30*npckts p.size % 2^32)) :=
    give_extends hf.fresh
  have hpos : s.brk ≠ 0 := by omega
  have hdata : block s'.mem s.brk (30*npckts p.size % 2^32) =
      List.replicate (30*npckts p.size % 2^32) 0 := by
    apply List.ext_getElem
    · simp
    · intro k hk _
      rw [block_length] at hk
      rw [getElem_block, hzero k hk, List.getElem_replicate]
  have hopen : r.cur.openCmd p =
      ⟨true, npckts p.size, 0, some (List.replicate (30*npckts p.size % 2^32) 0)⟩ := by
    simp [MsgT.openCmd, hc]
  have hview : s'.msgAt a = r.cur.openCmd p := by
    rw [hopen, Board.msgAt, hmem, htot, hcur, hptr, if_neg hpos, hdata]
    rfl
  have hlt := h.limit_lt
  refine ⟨_, ho, give_free hf hbrk hlim, ht, he.setCur ht ho
    ⟨he.curMsg.pos, he.curMsg.lt, hrec.extend ho, fun _ => ?_, hview⟩ (fun _ => ?_)⟩
  · rw [hptr, hopen]
    exact give_owns _ _ _ _
  · rw [hopen]
    exact ⟨hptr ▸ hpos, by rw [hblock, Function.update_self, hptr], by rw [hptr]; dsimp only; omega⟩

/-- The data packet fits in the block of the open message, in the handler's arithmetic. -/
def Fits (p : Packet) (m : MsgT) : Prop :=
  p.nbytes ≤ 30 ∧
    (p.nbytes = 0 ∨ 30*m.curPckts % 2^32 + p.nbytes ≤ 30*m.totPckts % 2^32)

lemma block_pcktAt {p : Packet} {buff n : ℕ} (hp : s.pcktAt buff = p) (hn : n ≤ 30) :
    block s.mem (buff+2) n = p.data.take n := by
  subst hp
  apply List.ext_getElem
  · simp [hn]
  · intro k hk _
    rw [getElem_block]
    simp [Packet.data, Packet.bytes, Board.pcktAt, Nat.add_assoc, -List.ofFn_succ]

/-- Copying into a block of the memory is copying into its contents. -/
lemma memcpy_block {m : ℕ → UInt8} {d n off : ℕ} {bs : List UInt8} (h : off + bs.length ≤ n) :
    block (fill m (d+off) bs) d n = memcpy (block m d n) off bs := by
  have hlen : ((block m d n).take off ++ bs ++ (block m d n).drop (off+bs.length)).length ≤
      (block m d n).length := by
    simp only [List.length_append, List.length_take, List.length_drop, block_length]
    omega
  rw [block_fill h, memcpy, List.take_of_length_le hlen]

lemma memcpy_nil (d : List UInt8) (off : ℕ) : memcpy d off [] = d := by
  rw [memcpy, List.append_nil, List.length_nil, Nat.add_zero, List.take_append_drop,
    List.take_length]

section Store
variable {p : Packet} {buff : ℕ}

/-- The fields of the current message, as the handler reads them. -/
lemma EntryMem.fields (he : EntryMem s o i a ids r) :
    (s.mem a != 0) = r.cur.hasCmd ∧ s.get32 (a+4) = r.cur.totPckts ∧
      s.get32 (a+8) = r.cur.curPckts := by
  rw [← he.curMsg.view]
  exact ⟨rfl,rfl,rfl⟩

lemma EntryMem.data (he : EntryMem s o i a ids r) (hc : r.cur.hasCmd = true) :
    r.cur.data = some (block s.mem (s.get32 (a+12)) (30*r.cur.totPckts % 2^32)) := by
  have hpos := (he.dataBlock hc).pos
  rw [← he.curMsg.view, Board.msgAt, if_neg hpos]

/-- The copy of a packet that fits changes the contents of the block only. -/
lemma EntryMem.memcpy (he : EntryMem s o i a ids r) (hp : s.pcktAt buff = p)
    (hc : r.cur.hasCmd = true) (hfit : Fits p r.cur) :
    Touches o (· = (i,.data a)) s (s.memcpy (s.copyOf buff a)) ∧
      some (block (s.memcpy (s.copyOf buff a)).mem (s.get32 (a+12))
          (30*r.cur.totPckts % 2^32)) = (r.cur.store p).data := by
  obtain ⟨hn,hroom⟩ := hfit
  have hb := he.dataBlock hc
  obtain ⟨_,htot,hcur⟩ := he.fields
  have hbs : block s.mem (buff+2) p.nbytes = p.data.take p.nbytes := block_pcktAt hp hn
  have hlen : (p.data.take p.nbytes).length = p.nbytes := by simp [hn]
  have hle := hb.le
  simp only [Board.memcpy, Board.copyOf, hp, hbs, MsgT.store, he.data hc, Option.map_some, hcur]
  rcases Nat.eq_zero_or_pos p.nbytes with hz | hpos
  · rw [hz, List.take_zero, fill_nil, memcpy_nil]
    exact ⟨.refl o _ s, rfl⟩
  · have hin : 30*r.cur.curPckts % 2^32 + p.nbytes ≤ 30*r.cur.totPckts % 2^32 :=
      hroom.resolve_left (by omega)
    have hdst : (s.get32 (a+12) + 30*r.cur.curPckts % 2^32) % 2^32 =
        s.get32 (a+12) + 30*r.cur.curPckts % 2^32 := Nat.mod_eq_of_lt (by omega)
    rw [hdst]
    refine ⟨Touches.fill (fun k hk q hq => ?_), ?_⟩
    · rw [hlen] at hk
      have hown := he.curMsg.data hb.pos (30*r.cur.curPckts % 2^32 + k) (by omega)
      rw [← Nat.add_assoc, hq] at hown
      exact Option.some.inj hown
    · rw [memcpy_block (by omega)]

/-- A data packet that fits is stored. -/
theorem EntryMem.store (he : EntryMem s o i a ids r) (hp : s.pcktAt buff = p)
    (hc : r.cur.hasCmd = true) (hfit : Fits p r.cur) :
    Touches o (IsCur i a) s (s.storeMsg buff a) ∧
      EntryMem (s.storeMsg buff a) o i a ids {r with cur := r.cur.store p} := by
  have hrec := he.curMsg.record
  have hb := he.dataBlock hc
  obtain ⟨hhas,htot,hcur⟩ := he.fields
  obtain ⟨ht₁,hblock⟩ := he.memcpy hp hc hfit
  have hs : s.storeMsg buff a =
      (s.memcpy (s.copyOf buff a)).set32 (a+8) (r.cur.curPckts+1) := by
    rw [Board.storeMsg, ht₁.get32 (hrec.sub (by decide)) (by simp), hcur]
  have hmem₁ : (s.memcpy (s.copyOf buff a)).mem a = s.mem a := by
    have hown : o a = some (i,.msg a) := hrec 0 (by decide)
    exact ht₁.mem a _ hown (by simp)
  have ht₂ : Touches o (· = (i,.msg a)) (s.memcpy (s.copyOf buff a)) (s.storeMsg buff a) := by
    rw [hs]
    exact Touches.set32 _ (hrec.sub (by decide)) rfl
  have ht : Touches o (IsCur i a) s (s.storeMsg buff a) :=
    (ht₁.mono (fun _ => Or.inr)).trans (ht₂.mono (fun _ => Or.inl))
  have hmem : (s.storeMsg buff a).mem a = s.mem a := by
    rw [hs, Board.mem_set32_of_ne _ (by omega), hmem₁]
  have htot' : (s.storeMsg buff a).get32 (a+4) = r.cur.totPckts := by
    rw [hs, Board.get32_set32_of_ne _ (by omega), ht₁.get32 (hrec.sub (by decide)) (by simp), htot]
  have hcur' : (s.storeMsg buff a).get32 (a+8) = (r.cur.curPckts+1) % 2^32 := by
    rw [hs, Board.get32_set32]
  have hptr' : (s.storeMsg buff a).get32 (a+12) = s.get32 (a+12) := by
    rw [hs, Board.get32_set32_of_ne _ (by omega), ht₁.get32 (hrec.sub (by decide)) (by simp)]
  have hblock' : block (s.storeMsg buff a).mem (s.get32 (a+12)) (30*r.cur.totPckts % 2^32) =
      block (s.memcpy (s.copyOf buff a)).mem (s.get32 (a+12)) (30*r.cur.totPckts % 2^32) :=
    block_congr (fun k hk => ht₂.mem _ _ (he.curMsg.data hb.pos k hk) (by simp))
  have hview : (s.storeMsg buff a).msgAt a = r.cur.store p := by
    rw [Board.msgAt, hmem, htot', hcur', hptr', if_neg hb.pos, hblock', hblock, hhas]
    rfl
  refine ⟨ht, he.setCur ht (.refl o) ⟨he.curMsg.pos, he.curMsg.lt, hrec, fun hz => ?_, hview⟩
    (fun _ => ⟨hptr' ▸ hb.pos, ?_, hptr' ▸ hb.le⟩)⟩
  · rw [hptr'] at hz ⊢
    exact he.curMsg.data hz
  · rw [hptr', hs]
    exact hb.eq

end Store
section Push
variable {f : ℕ}

/-- Two parts of the memory do not overlap. -/
lemma Owns.disjoint {q q' : Fin 17 × Part} {b n k : ℕ} (hq : Owns o q a n) (hq' : Owns o q' b k)
    (hne : q ≠ q') : a+n ≤ b ∨ b+k ≤ a ∨ n = 0 ∨ k = 0 := by
  by_contra hc
  push Not at hc
  obtain ⟨h₁,h₂,hn,hk⟩ := hc
  rcases Nat.le_total a b with hab | hba
  · have ha := hq (b-a) (by omega)
    have hb := hq' 0 (by omega)
    rw [Nat.add_sub_cancel' hab] at ha
    exact hne (Option.some.inj (ha.symm.trans hb))
  · have ha := hq 0 (by omega)
    have hb := hq' (a-b) (by omega)
    rw [Nat.add_sub_cancel' hba] at hb
    exact hne (Option.some.inj (ha.symm.trans hb))

/-- `Q_push` on the queue of the `fd` at `f`. -/
lemma push_spec (hsep : f+20 ≤ a ∨ a+20 ≤ f) (ha : a < 2^32) :
    (s.push (f+4) a).get32 (f+4) = a ∧
      (s.push (f+4) a).get32 (f+8) = (if s.get32 (f+8) = 0 then a else s.get32 (f+8)) ∧
      (s.push (f+4) a).get32 (f+12) = (s.get32 (f+12) + 1) % 2^32 ∧
      (s.push (f+4) a).get32 (a+16) = s.get32 (f+4) ∧
      ∀ x, x < f+4 ∨ f+16 ≤ x → x < a+16 ∨ a+20 ≤ x → (s.push (f+4) a).mem x = s.mem x := by
  have hlt := s.get32_lt (f+4)
  have hmod := Nat.mod_eq_of_lt ha
  simp only [Board.push, Nat.add_assoc, Nat.reduceAdd]
  simp (disch := omega) only [Board.get32_set32_of_ne]
  by_cases ht : s.get32 (f+8) = 0
  · rw [if_pos ht, if_pos ht]
    simp (disch := omega) [Board.get32_set32_of_ne, Nat.mod_eq_of_lt]
    intro x hx hx'
    simp (disch := omega) only [Board.mem_set32_of_ne]
  · rw [if_neg ht, if_neg ht]
    simp (disch := omega) [Board.get32_set32_of_ne, Nat.mod_eq_of_lt]
    intro x hx hx'
    simp (disch := omega) only [Board.mem_set32_of_ne]

/-- The fresh `msg_t` of `addMsg`. -/
def freshMsg (s : Board) (d : ℕ) : Board :=
  (((s.set8 (d+1) 0).set32 (d+4) 0).set32 (d+8) 0).set32 (d+12) 0

lemma freshMsg_spec {s₁ : Board} {d : ℕ} (hf : Free h o s) (hk : s.kmalloc h 20 = some (d,s₁)) :
    Touches o (fun _ => False) s (freshMsg s₁ d) ∧ (freshMsg s₁ d).msgAt d = .zero ∧
      (freshMsg s₁ d).get32 (d+12) = 0 := by
  have hd : d = s.brk := (kmalloc_frame hk).2.2.2.2.1
  have hfree : ∀ k x, d+k ≤ x → o x = none := fun k x hx => hf.fresh x (by omega)
  have hnull : (freshMsg s₁ d).get32 (d+12) = 0 := by simp [freshMsg]
  refine ⟨?_, ?_, hnull⟩
  · exact ((((kmalloc_touches hk hf.fresh).trans (Touches.set8_free 0 (hfree 1))).trans
      (Touches.set32_free 0 (hfree 4))).trans (Touches.set32_free 0 (hfree 8))).trans
      (Touches.set32_free 0 (hfree 12))
  · have hzero : s₁.mem d = 0 :=
      kmalloc_zero hk (k := 0) (Nat.lt_of_lt_of_le (by decide) (h.le_round 20))
    have hmem : (s₁.set8 (d+1) 0).mem d = s₁.mem d := write8_outside 0 (by omega)
    rw [Board.msgAt_of_null hnull]
    simp (disch := omega) [freshMsg, Board.get32_set32_of_ne, Board.mem_set32_of_ne, hmem, hzero,
      MsgT.zero]

lemma push_rest (s : Board) (q e : ℕ) : (s.push q e).fileTable = s.fileTable ∧
    (s.push q e).brk = s.brk ∧ (s.push q e).dataBlock = s.dataBlock := by
  unfold Board.push
  dsimp only
  split <;> exact ⟨rfl,rfl,rfl⟩

/-- The parts that `addMsg` writes. -/
abbrev IsPushed (i : Fin 17) (a : ℕ) (q : Fin 17 × Part) : Prop := q = (i,.fd) ∨ q = (i,.msg a)

/-- Pushing the current message and pointing the `fd` to the message at `d`. -/
lemma pushCur_touches (d : ℕ) (he : EntryMem s o i a ids r) : Touches o (IsPushed i a) s
    ((s.push (s.fdAddr i + 4) a).set32 (s.fdAddr i) d) := by
  have hrec := he.curMsg.record
  have hfd := he.fd
  obtain ⟨hfile,hbrk,hblock⟩ := push_rest s (s.fdAddr i + 4) a
  have hsep := hfd.disjoint hrec (by simp)
  obtain ⟨_,_,_,_,hmem⟩ := push_spec (s := s) (f := s.fdAddr i) (a := a) (by omega) he.curMsg.lt
  refine ⟨fun x q hx hq => ?_, hfile, hbrk.ge, fun b j _ _ => congrFun hblock b⟩
  have hfd' : ∀ k < 20, x ≠ s.fdAddr i + k := by
    rintro k hk rfl
    rw [hfd k hk] at hx
    exact hq (Or.inl (Option.some.inj hx).symm)
  have hrec' : ∀ k < 20, x ≠ a + k := by
    rintro k hk rfl
    rw [hrec k hk] at hx
    exact hq (Or.inr (Option.some.inj hx).symm)
  have h1 : x < s.fdAddr i ∨ s.fdAddr i + 20 ≤ x := by
    by_contra hc
    exact hfd' (x - s.fdAddr i) (by omega) (by omega)
  have h2 : x < a ∨ a + 20 ≤ x := by
    by_contra hc
    exact hrec' (x - a) (by omega) (by omega)
  rw [Board.mem_set32_of_ne _ (by omega)]
  exact hmem x (by omega) (by omega)

lemma toPtr_pos {v : ℕ} (h : 0 < v) : Board.toPtr v = some v := if_neg (by omega)

/-- What `addMsg` leaves in the `fd` and in the message that it pushes. -/
lemma pushCur_spec {d : ℕ} {s' : Board} (he : EntryMem s o i a ids r) (hd : d < 2^32)
    (hroom : ids.length + 1 < 2^32)
    (hs : (s.push (s.fdAddr i + 4) a).set32 (s.fdAddr i) d = s') :
    s'.get32 (s.fdAddr i) = d ∧ s'.mem (s.fdAddr i + 16) = s.mem (s.fdAddr i + 16) ∧
      s'.queue i = ((s.queue i).push s.next a).2 ∧
      s'.next a = ((s.queue i).push s.next a).1 a ∧ ∀ k < 16, s'.mem (a+k) = s.mem (a+k) := by
  have hm := he.curMsg
  have hsep := he.fd.disjoint hm.record (by simp)
  have ht := pushCur_touches d he
  rw [hs] at ht
  obtain ⟨hhead,htail,hcnt,hnext,hmem⟩ :=
    push_spec (s := s) (f := s.fdAddr i) (a := a) (by omega) hm.lt
  have hget : ∀ x, s.fdAddr i + 4 ≤ x ∨ x+4 ≤ s.fdAddr i →
      s'.get32 x = (s.push (s.fdAddr i + 4) a).get32 x := fun x hx => by
    rw [← hs, Board.get32_set32_of_ne _ (by omega)]
  refine ⟨?_, ?_, ?_, ?_, fun k hk => ?_⟩
  · rw [← hs, Board.get32_set32, Nat.mod_eq_of_lt hd]
  · rw [← hs, Board.mem_set32_of_ne _ (by omega), hmem _ (by omega) (by omega)]
  · have hlen : s.get32 (s.fdAddr i + 12) = ids.length := he.queue.cnt
    rw [Board.queue, ht.fdAddr, hget _ (by omega), hget _ (by omega), hget _ (by omega), hhead,
      htail, hcnt, hlen, Nat.mod_eq_of_lt hroom]
    simp only [Queue.push, Board.queue, toPtr_pos hm.pos, hlen]
    by_cases hz : s.get32 (s.fdAddr i + 8) = 0
    · simp [hz, Board.toPtr, Nat.ne_of_gt hm.pos]
    · simp [hz, Board.toPtr]
  · rw [Board.next, hget _ (by omega), hnext]
    simp [Queue.push, Board.queue]
  · rw [← hs, Board.mem_set32_of_ne _ (by omega), hmem _ (by omega) (by omega)]

/-- A message whose fields and block are kept is kept. -/
lemma MsgMem.keep {s' : Board} {m : MsgT} (hm : MsgMem s o i a m)
    (hrec : ∀ k < 16, s'.mem (a+k) = s.mem (a+k))
    (hdata : ∀ x, o x = some (i,.data a) → s'.mem x = s.mem x) : MsgMem s' o i a m := by
  have hptr : s'.get32 (a+12) = s.get32 (a+12) :=
    read32_congr (fun k hk => by rw [Nat.add_assoc]; exact hrec _ (by omega))
  refine ⟨hm.pos, hm.lt, hm.record, by rw [hptr]; exact hm.data, ?_⟩
  rw [← hm.view]
  refine msgAt_congr hrec (fun hz k hk => ?_)
  rw [hm.totPckts] at hk
  exact hdata _ (hm.data hz k hk)

theorem EntryMem.pushCur {d : ℕ} (he : EntryMem s o i a ids r) (hd : MsgMem s o i d .zero)
    (hne : d ≠ a) (hnew : d ∉ ids) (hroom : ids.length + 1 ≤ s.brk) (hlt : s.brk < 2^32) :
    EntryMem ((s.push (s.fdAddr i + 4) a).set32 (s.fdAddr i) d) o i d (a::ids)
      {r with cur := .zero, queue := r.cur::r.queue} := by
  have ht := pushCur_touches d he
  generalize hs : (s.push (s.fdAddr i + 4) a).set32 (s.fdAddr i) d = s' at ht ⊢
  obtain ⟨hcur,hstatus,hq,hnext,hrec⟩ := pushCur_spec he hd.lt (by omega) hs
  have hids : ∀ b ∈ ids, b ≠ a := fun b hb => ne_of_mem_of_not_mem hb he.apart
  have hpushed : MsgMem s' o i a r.cur :=
    he.curMsg.keep hrec (fun x hx => ht.mem x _ hx (by simp))
  have hqueue : IsQueue s'.next (s'.queue i) (a::ids) := by
    rw [hq]
    refine (he.queue.push he.apart).congr (fun b hb => ?_)
    rcases List.mem_cons.mp hb with rfl | hb
    · exact hnext
    · obtain ⟨m,hb'⟩ := mem_forall₂_left he.msgs hb
      rw [next_frame hb' ht (by simp [hids b hb])]
      exact (Function.update_of_ne (hids b hb) _ _).symm
  refine ⟨ht.fdAddr i ▸ he.fd, ht.fdAddr i ▸ hcur, hd.frame ht (.refl o) (by simp [hne]) (by simp),
    hqueue, .cons hpushed (he.msgs_frame ht (.refl o) (fun b hb => by simp [hids b hb])), ?_, ?_,
    hroom.trans ht.brk, fun hc => by cases hc⟩
  · simp only [List.mem_cons, not_or]
    exact ⟨hne,hnew⟩
  · rw [ht.fdAddr, hstatus]
    exact he.status

/-- Putting the current message on the queue and starting on a fresh one. -/
theorem EntryMem.addMsg {s' : Board} (he : EntryMem s o i a ids r) (hf : Free h o s)
    (hs : s.addMsg h (s.fdAddr i) = some s') : ∃ o' a', Extends o o' ∧ Free h o' s' ∧
      Touches o (IsPushed i a) s s' ∧
      EntryMem s' o' i a' (a::ids) {r with cur := .zero, queue := r.cur::r.queue} := by
  unfold Board.addMsg at hs
  obtain ⟨⟨d,s₁⟩,hk,hs⟩ := Option.bind_eq_some_iff.mp hs
  obtain ⟨_,_,_,_,hd,hbrk,hlim⟩ := kmalloc_frame hk
  have hbrk : s.brk + 20 ≤ s₁.brk := hbrk
  obtain ⟨ht₂,hzero,hnull⟩ := freshMsg_spec hf hk
  have hbrk₂ : (freshMsg s₁ d).brk = s₁.brk := rfl
  have ho : Extends o (give o (i,.msg d) d 20) := give_extends (hd ▸ hf.fresh)
  have he₂ := he.frame ht₂ ho (fun _ => id)
  have hfd := ht₂.fdAddr i
  generalize hs₂ : freshMsg s₁ d = s₂ at ht₂ he₂ hzero hnull hbrk₂ hfd
  have hs' : s' = (s₂.push (s₂.fdAddr i + 4) a).set32 (s₂.fdAddr i) d := by
    rw [← he₂.cur, hfd, ← hs₂]
    exact (Option.some.inj hs).symm
  have hlim' := h.limit_lt
  have hold : ∀ b ∈ a::ids, b < d := by
    intro b hb
    have hown : o b = some (i,.msg b) := by
      rcases List.mem_cons.mp hb with rfl | hb
      · exact he.curMsg.record 0 (by decide)
      · obtain ⟨m,hm⟩ := mem_forall₂_left he.msgs hb
        exact hm.record 0 (by decide)
    exact hd ▸ hf.lt hown
  have hda := hold a (List.mem_cons_self ..)
  have hmsg : MsgMem s₂ (give o (i,.msg d) d 20) i d .zero :=
    ⟨by omega, by omega, give_owns _ _ _ _, fun hz => absurd hnull hz, hzero⟩
  have hroom := he.room
  have hsbrk : s'.brk = s₁.brk := by rw [hs']; exact (push_rest ..).2.1.trans hbrk₂
  have hfin := he₂.pushCur hmsg (Nat.ne_of_gt hda)
    (fun hc => Nat.lt_irrefl _ (hold d (List.mem_cons_of_mem _ hc))) (by omega) (by omega)
  have ht₃ := (pushCur_touches d he₂).restrict ho
  rw [← hs'] at hfin ht₃
  refine ⟨_, d, ho, ?_, (ht₂.mono (fun _ hc => hc.elim)).trans ht₃, hfin⟩
  rw [hd]
  exact give_free hf (by omega) (by omega)

end Push
end Current
end DistributedPis
