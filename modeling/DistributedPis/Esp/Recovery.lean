import DistributedPis.Esp.Bounds

/-! After an error, or in the middle of a message that never gets complete, the next message
from the Pi brings the sketch back to an idle buffer, and the one after it is collected. -/
namespace DistributedPis
open Library
namespace Esp

/-- The buffer is ready to run a command, and holds exactly the packets `ps`. -/
structure Assembled (ps : List Packet) (b : PiBuff) : Prop where
  ready : b.runRdy = true
  pckts : ∃ m, b.buff = some m ∧ b.cmndPckt :: (List.range b.numPckts).map m.cells = ps

/-- The packets `ps` arrive, and `malloc` always succeeds. -/
def Carries (ps : List Packet) (as : List Arrival) : Prop :=
  as.map Arrival.pckt = ps ∧ ∀ a ∈ as, a.env.malloc.isSome = true

/-- Whatever the network answers, when the packets `ps` of one message and then the packets `qs` of
another arrive in state `s`, no packet is stored outside its block, and the second message gets
ready with its last packet; where a connection can be made, all packets are handled. -/
structure Recovers (server : Bool) (s : Esp) (ps qs : List Packet) : Prop where
  collects : ∀ as bs, Carries ps as → Carries qs bs →
    ∀ ys a zs, as ++ bs = ys ++ a::zs → ∀ t, ys.foldlM (deliver server) s = some t →
      ∃ u, t.parsePacket a.env.malloc a.pckt = some u ∧
        (as.length ≤ ys.length → (u.fromPi.runRdy = true ↔ zs = []) ∧
          (zs = [] → Assembled qs u.fromPi))
  returns : ∀ as bs, Carries ps as → Carries qs bs →
    (∀ a ∈ as ++ bs, a.env.connect.isSome = true) →
      ((as ++ bs).foldlM (deliver server) s).isSome = true

lemma Carries.append {ps qs : List Packet} {as bs : List Arrival}
    (h : Carries (ps ++ qs) (as ++ bs)) (hlen : as.length = ps.length) :
    Carries ps as ∧ Carries qs bs := by
  obtain ⟨h₁,h₂⟩ := h
  rw [List.map_append] at h₁
  obtain ⟨ha,hb⟩ := List.append_inj h₁ (by simpa using hlen)
  exact ⟨⟨ha, fun a h => h₂ a (by simp [h])⟩, ⟨hb, fun a h => h₂ a (by simp [h])⟩⟩

lemma Carries.snoc {ps : List Packet} {p : Packet} {as : List Arrival}
    (h : Carries (ps ++ [p]) as) :
    ∃ ys a cells, as = ys ++ [a] ∧ Carries ps ys ∧ a.pckt = p ∧ a.env.malloc = some cells := by
  have hlen := congrArg List.length h.1
  rcases List.eq_nil_or_concat' as with rfl | ⟨ys,a,rfl⟩
  · simp at hlen
  · obtain ⟨hys,ha⟩ := h.append (by simpa using hlen)
    obtain ⟨cells,hcells⟩ := Option.isSome_iff_exists.mp (ha.2 a (by simp))
    exact ⟨ys, a, cells, rfl, hys, by simpa using ha.1, hcells⟩

section Message
variable {server : Bool} {hdr : Packet} {ds : List Packet} {s t u : Esp} {a : Arrival}
  {as ys zs : List Arrival} {q : Packet} {c : ℕ}

/-- A packet that does not complete a command is only parsed. -/
lemma deliver_of_waits (h : s.parsePacket a.env.malloc a.pckt = some t)
    (hrdy : t.fromPi.runRdy = false) : deliver server s a = some t := by
  rw [deliver, h]
  simp [hrdy]

/-- After the last packet the command is run. -/
lemma deliver_of_ready (h : s.parsePacket a.env.malloc a.pckt = some u)
    (hrdy : u.fromPi.runRdy = true) (hd : deliver server s a = some t) :
    ∃ q, t.fromPi = idleBuff q := by
  rw [deliver, h] at hd
  simp only [Option.bind_eq_bind, Option.bind_some, hrdy, if_true] at hd
  obtain ⟨v,-,hv⟩ := Option.bind_eq_some_iff.mp hd
  cases hv
  exact ⟨_,rfl⟩

/-- As long as packets are missing, those that have arrived are collected. -/
lemma deliver_collects (server : Bool) (hm : IsMessage hdr ds) (hs : s.fromPi = idleBuff q)
    (hc : c < ds.length) (hfit : 32*c ≤ 32*ds.length % 2^32) (hys : Carries (hdr :: ds.take c) ys) :
    ∃ cells, ys.foldlM (deliver server) s =
      some { s with fromPi := collected (some cells) hdr ds c } := by
  have hwaits : ∀ cells : ℕ → Packet, (collected (some cells) hdr ds c).runRdy = false := by
    intro cells
    rw [collected_of_lt hc]
  induction c generalizing ys with
  | zero =>
    have hone : Carries ([] ++ [hdr]) ys := hys
    obtain ⟨ys,a,cells,rfl,hys,rfl,hcells⟩ := hone.snoc
    obtain rfl : ys = [] := by simpa using hys.1
    refine ⟨cells, ?_⟩
    have hparse : s.parsePacket a.env.malloc a.pckt = _ := parsePacket_header hm hs
    rw [hcells] at hparse
    rw [List.nil_append, List.foldlM_cons,
      deliver_of_waits (by rw [hcells]; exact hparse) (hwaits cells)]
    rfl
  | succ c ih =>
    have hpckts : hdr :: ds.take (c+1) = (hdr :: ds.take c) ++ [ds[c]] := by
      rw [List.take_succ_eq_append_getElem (by omega), List.cons_append]
    rw [hpckts] at hys
    obtain ⟨ys,a,-,rfl,hys,ha,-⟩ := hys.snoc
    obtain ⟨cells,hrun⟩ := ih (by omega) (by omega) hys fun cells => by
      rw [collected_of_lt (by omega)]
    refine ⟨cells, ?_⟩
    have hparse := parsePacket_data (s := { s with fromPi := collected (some cells) hdr ds c }) hm
      (by omega) rfl (by omega) a.env.malloc
    rw [← ha] at hparse
    rw [List.foldlM_append, hrun]
    simp only [Option.bind_eq_bind, Option.bind_some, List.foldlM_cons, List.foldlM_nil]
    rw [deliver_of_waits hparse (hwaits cells)]
    rfl

lemma assembled_collected (cells : ℕ → Packet) :
    Assembled (hdr::ds) (collected (some cells) hdr ds ds.length) := by
  refine ⟨(collected_runRdy le_rfl).mpr rfl, ⟨32*ds.length % 2^32, storeAll cells ds⟩, ?_, ?_⟩
  · rw [collected, checkFull_buff, Option.map_some, List.take_length]
  · rw [collected, checkFull_cmndPckt, checkFull_numPckts]
    congr 1
    apply List.ext_getElem
    · simp
    · intro i _ hi
      simp [storeAll_of_lt _ _ _ hi]

/-- One packet of a message that began on an idle buffer. -/
lemma message_parse (hm : IsMessage hdr ds) (hfit : 32*ds.length < 2^32)
    (hs : s.fromPi = idleBuff q) (has : Carries (hdr::ds) (ys ++ a::zs))
    (hrun : ys.foldlM (deliver server) s = some t) :
    ∃ cells, t.parsePacket a.env.malloc a.pckt =
      some { s with fromPi := collected (some cells) hdr ds ys.length } := by
  have hlen := congrArg List.length has.1
  cases ys with
  | nil =>
    cases hrun
    obtain ⟨cells,hcells⟩ := Option.isSome_iff_exists.mp (has.2 a (by simp))
    have ha : a.pckt = hdr := (List.cons.inj has.1).1
    refine ⟨cells, ?_⟩
    rw [hcells, ha]
    exact parsePacket_header hm hs
  | cons y ys =>
    simp only [List.map_append, List.map_cons, List.length_append, List.length_cons,
      List.length_map] at hlen
    have hc : ys.length < ds.length := by omega
    have hpckts : hdr::ds =
        (hdr :: ds.take ys.length) ++ ds[ys.length] :: ds.drop (ys.length+1) := by
      simp
    rw [hpckts] at has
    obtain ⟨hys,hrest⟩ := has.append (by simp; omega)
    obtain ⟨cells,hcollect⟩ := deliver_collects server hm hs hc (by omega) hys
    obtain rfl := Option.some.inj (hcollect.symm.trans hrun)
    have ha : a.pckt = ds[ys.length] := (List.cons.inj hrest.1).1
    refine ⟨cells, ?_⟩
    rw [ha]
    exact parsePacket_data (s := { s with fromPi := collected (some cells) hdr ds ys.length }) hm hc
      rfl (by omega) a.env.malloc

lemma message_split (hm : IsMessage hdr ds) (hfit : 32*ds.length < 2^32)
    (hs : s.fromPi = idleBuff q) (has : Carries (hdr::ds) (ys ++ a::zs))
    (hrun : ys.foldlM (deliver server) s = some t) :
    ∃ u, t.parsePacket a.env.malloc a.pckt = some u ∧ (u.fromPi.runRdy = true ↔ zs = []) ∧
      (zs = [] → Assembled (hdr::ds) u.fromPi) := by
  have hlen := congrArg List.length has.1
  simp only [List.map_append, List.map_cons, List.length_append, List.length_cons,
    List.length_map] at hlen
  obtain ⟨cells,hparse⟩ := message_parse hm hfit hs has hrun
  refine ⟨_, hparse, ?_, ?_⟩
  · rw [collected_runRdy (by omega), ← List.length_eq_zero_iff]
    omega
  · rintro rfl
    have hys : ys.length = ds.length := by simpa using hlen
    rw [hys]
    exact assembled_collected cells

/-- Behind the last packet of the message the buffer is idle again. -/
lemma message_idle (hm : IsMessage hdr ds) (hfit : 32*ds.length < 2^32)
    (hs : s.fromPi = idleBuff q) (has : Carries (hdr::ds) as)
    (hrun : as.foldlM (deliver server) s = some t) : ∃ q, t.fromPi = idleBuff q := by
  rcases List.eq_nil_or_concat' as with rfl | ⟨ys,a,rfl⟩
  · exact absurd has.1 (by simp)
  · rw [List.foldlM_append] at hrun
    obtain ⟨v,hv,hlast⟩ := Option.bind_eq_some_iff.mp hrun
    obtain ⟨u,hu,hrdy,-⟩ := message_split hm hfit hs has hv
    simp only [List.foldlM_cons, List.foldlM_nil, Option.bind_eq_bind] at hlast
    obtain ⟨w,hw,hlast⟩ := Option.bind_eq_some_iff.mp hlast
    cases hlast
    exact deliver_of_ready hu (hrdy.mpr rfl) hw

/-- A data packet on an idle buffer, or a command packet while a command is open. -/
lemma parsePacket_reject (hs : Orderly s.fromPi) (hp : a.pckt.isCmd = true ↔ s.fromPi.cmnd ≠ 0) :
    s.parsePacket a.env.malloc a.pckt = some s.clean := by
  unfold parsePacket
  simp only [hs.waits, Bool.false_eq_true, if_false]
  by_cases hbytes : a.pckt.nbytes = 0
  · rw [if_pos hbytes]
  · rw [if_neg hbytes]
    by_cases hcmd : a.pckt.isCmd = true
    · rw [if_pos hcmd, if_pos (Or.inl (UInt8.pos_iff_ne_zero.mpr (hp.mp hcmd)))]
    · rw [if_neg hcmd, if_pos (not_not.mp (mt hp.mpr hcmd))]

/-- Only the first packet of a message is a command packet. -/
lemma isCmd_iff_first (hm : IsMessage hdr ds) (has : Carries (hdr::ds) (ys ++ a::zs)) :
    a.pckt.isCmd = true ↔ ys = [] := by
  cases ys with
  | nil =>
    have ha : a.pckt = hdr := (List.cons.inj has.1).1
    simp [ha, hm.isCmd]
  | cons y ys =>
    have htail : (ys ++ a::zs).map Arrival.pckt = ds := (List.cons.inj has.1).2
    have hmem : a.pckt ∈ ds := by
      rw [← htail]
      simp
    simp [(hm.data _ hmem).1]

/-- A message that arrives while a command is open is discarded. -/
lemma reject_run (server : Bool) (hm : IsMessage hdr ds) (hs : Orderly s.fromPi)
    (hcmnd : s.fromPi.cmnd ≠ 0) (has : Carries (hdr::ds) (ys ++ zs)) :
    ∃ t, ys.foldlM (deliver server) s = some t ∧
      Orderly t.fromPi ∧ (t.fromPi.cmnd ≠ 0 ↔ ys = []) := by
  induction ys using List.reverseRecOn generalizing zs with
  | nil => exact ⟨s, rfl, hs, by simpa using hcmnd⟩
  | append_singleton ys a ih =>
    rw [List.append_assoc] at has
    obtain ⟨t,hrun,ht,hopen⟩ := ih has
    have hreject := parsePacket_reject ht ((isCmd_iff_first hm has).trans hopen.symm)
    refine ⟨t.clean, ?_, orderly_idle _, by simp [clean, idleBuff]⟩
    rw [List.foldlM_append, hrun]
    simp only [Option.bind_eq_bind, Option.bind_some, List.foldlM_cons, List.foldlM_nil]
    rw [deliver_of_waits hreject rfl]
    rfl

/-- A message leaves the buffer idle, whether it is collected or discarded. -/
lemma first_message (server : Bool) (hm : IsMessage hdr ds) (hs : Orderly s.fromPi)
    (hfit : 32*ds.length < 2^32) (has : Carries (hdr::ds) as) :
    (∀ ys a zs, as = ys ++ a::zs → ∀ t, ys.foldlM (deliver server) s = some t →
      (t.parsePacket a.env.malloc a.pckt).isSome = true) ∧
    ∀ t, as.foldlM (deliver server) s = some t → ∃ q, t.fromPi = idleBuff q := by
  by_cases hcmnd : s.fromPi.cmnd = 0
  · have hidle := hs.idle hcmnd
    refine ⟨?_, fun t ht => message_idle hm hfit hidle has ht⟩
    rintro ys a zs rfl t ht
    obtain ⟨u,hu,-⟩ := message_split hm hfit hidle has ht
    rw [hu]
    rfl
  · constructor
    · rintro ys a zs rfl t ht
      obtain ⟨t',ht',horder,hopen⟩ := reject_run server hm hs hcmnd has
      obtain rfl := Option.some.inj (ht'.symm.trans ht)
      rw [parsePacket_reject horder ((isCmd_iff_first hm has).trans hopen.symm)]
      rfl
    · intro t ht
      have has' : Carries (hdr::ds) (as ++ []) := by rwa [List.append_nil]
      obtain ⟨t',ht',horder,hopen⟩ := reject_run server hm hs hcmnd has'
      obtain rfl := Option.some.inj (ht'.symm.trans ht)
      have hne : as ≠ [] := by
        rintro rfl
        exact absurd has.1 (by simp)
      exact ⟨_, horder.idle (not_not.mp (mt hopen.mp hne))⟩

end Message

section Returns
variable {server : Bool} {s t : Esp} {a : Arrival}

/-- No command hangs where a connection can be made. -/
lemma deliver_isSome (henv : a.env.connect.isSome = true)
    (h : s.parsePacket a.env.malloc a.pckt = some t) : (deliver server s a).isSome = true := by
  have hsend := (t.sendMsg_isSome_iff server a.env).mpr (Or.inr henv)
  have hexec : (t.execute server a.env).isSome = true := by
    unfold execute
    split_ifs <;> first | exact hsend | rfl
  obtain ⟨u,hu⟩ := Option.isSome_iff_exists.mp hexec
  rw [deliver, h, Option.bind_eq_bind, Option.bind_some]
  split
  · rw [runCmnd, hu]
    rfl
  · rfl

end Returns

section Main
variable {server : Bool} {conns : ℕ → Conn} {arrived : List Arrival} {s : Esp} {m m₁ m₂ : Msg}
  {ps qs : List Packet}

lemma send_isMessage (hcmd : m.cmd ≠ 0) (hsend : m.send = some ps) :
    ∃ hdr ds, ps = hdr::ds ∧ IsMessage hdr ds ∧ 32*ds.length < 2^32 := by
  obtain ⟨hsize,rfl⟩ := (m.send_eq_some_iff ps).mp hsend
  obtain ⟨hdr,ds,hpckts,hm,rfl,-,-⟩ := cmdPckts_isMessage m.heap m.cmd m.toId m.fromId m.payload
    hcmd (hsize.trans_lt (by decide))
  exact ⟨hdr, _, hpckts, hm, by simpa using (npckts_lt_iff _).mpr hsize⟩

/-- In every state the sketch can be in between two packets, the second of two messages is
collected. -/
theorem second_message_collected (hs : arrived.foldlM (deliver server) (setup conns) = some s)
    (h₁ : m₁.cmd ≠ 0) (h₂ : m₂.cmd ≠ 0) (hsend₁ : m₁.send = some ps)
    (hsend₂ : m₂.send = some qs) : Recovers server s ps qs := by
  obtain ⟨hdr₁,ds₁,rfl,hm₁,hfit₁⟩ := send_isMessage h₁ hsend₁
  obtain ⟨hdr₂,ds₂,rfl,hm₂,hfit₂⟩ := send_isMessage h₂ hsend₂
  have hcollects : ∀ as bs, Carries (hdr₁::ds₁) as → Carries (hdr₂::ds₂) bs →
      ∀ ys a zs, as ++ bs = ys ++ a::zs → ∀ t, ys.foldlM (deliver server) s = some t →
        ∃ u, t.parsePacket a.env.malloc a.pckt = some u ∧
          (as.length ≤ ys.length → (u.fromPi.runRdy = true ↔ zs = []) ∧
            (zs = [] → Assembled (hdr₂::ds₂) u.fromPi)) := by
    intro as bs has hbs ys a zs hsplit t ht
    obtain ⟨hparse,hidle⟩ := first_message server hm₁ (run_orderly hs) hfit₁ has
    rcases List.append_eq_append_iff.mp hsplit with ⟨cs,rfl,rfl⟩ | ⟨cs,rfl,hcs⟩
    · -- the packet belongs to the second message
      rw [List.foldlM_append] at ht
      obtain ⟨v,hv,ht⟩ := Option.bind_eq_some_iff.mp ht
      obtain ⟨q,hq⟩ := hidle v hv
      obtain ⟨u,hu,hrdy,hdone⟩ := message_split hm₂ hfit₂ hq hbs ht
      exact ⟨u, hu, fun _ => ⟨hrdy,hdone⟩⟩
    · cases cs with
      | nil =>
        -- it is the first one of the second message
        obtain ⟨q,hq⟩ := hidle t (by simpa using ht)
        have hbs' : Carries (hdr₂::ds₂) ([] ++ a::zs) := by rwa [hcs]
        have hnone : ([] : List Arrival).foldlM (deliver server) t = some t := rfl
        obtain ⟨u,hu,hrdy,hdone⟩ := message_split hm₂ hfit₂ hq hbs' hnone
        exact ⟨u, hu, fun _ => ⟨hrdy,hdone⟩⟩
      | cons c cs =>
        obtain ⟨rfl,-⟩ := List.cons.inj hcs
        obtain ⟨u,hu⟩ := Option.isSome_iff_exists.mp (hparse ys a cs rfl t ht)
        refine ⟨u, hu, fun hle => ?_⟩
        simp only [List.length_append, List.length_cons] at hle
        omega
  refine ⟨hcollects, fun as bs has hbs henv => foldlM_isSome fun ys a zs hsplit t ht => ?_⟩
  obtain ⟨u,hu,-⟩ := hcollects as bs has hbs ys a zs hsplit t ht
  exact deliver_isSome (henv a (by rw [hsplit]; simp)) hu

/-- An unknown command, then one without data. -/
theorem second_message_collected_setup :
    Recovers true (setup fun _ => ⟨false, [], [], .unset⟩) (cmdPckts (fun _ => 0) 1 0 0 [7])
      (cmdPckts (fun _ => 0) espIsConnected 0 0 []) := by
  have hrun : ([] : List Arrival).foldlM (deliver true) (setup fun _ => ⟨false, [], [], .unset⟩) =
      some (setup fun _ => ⟨false, [], [], .unset⟩) := rfl
  have hfirst : Msg.send ⟨fun _ => 0, 1, 0, 0, [7]⟩ = some (cmdPckts (fun _ => 0) 1 0 0 [7]) :=
    Msg.send_eq (by decide)
  have hsecond : Msg.send ⟨fun _ => 0, espIsConnected, 0, 0, []⟩ =
      some (cmdPckts (fun _ => 0) espIsConnected 0 0 []) := Msg.send_eq (by decide)
  exact second_message_collected hrun (by decide) (by decide) hfirst hsecond

end Main
end Esp
end DistributedPis
