import DistributedPis.Pi.HeapRefines

/-! Memory bounds of the packet handler, and what one sender can do to the entry of another. -/
namespace DistributedPis
open Library

/-- The largest packet count a 32 bit size can ask for; its block size wraps around to 14. -/
def maxPckts : ℕ := 143165577

/-- The packet's data fits where the handler puts it: no length of 31, nothing for a message
without data, and almost nothing for a message whose block size wrapped around. -/
def Room (p : Packet) (m : MsgT) : Prop :=
  p.nbytes ≤ 30 ∧ (m.totPckts = 0 → p.nbytes = 0) ∧
    (m.totPckts = maxPckts → p.nbytes ≤ if m.curPckts = 0 then 14 else 0)

/-- What the counts of an open message satisfy. -/
def Receiver.WF (r : Receiver) : Prop := r.cur.hasCmd = true →
  r.cur.totPckts ≤ maxPckts ∧ r.cur.curPckts < 2^32 ∧
    (r.cur.totPckts = 0 ∨ r.cur.curPckts < r.cur.totPckts)

lemma init_wf : Receiver.init.WF := fun h => by cases h

lemma npckts_le_maxPckts {n : ℕ} (h : n < 2^32) : npckts n ≤ maxPckts := by
  have hm : 30*npckts n < n+30 := mul_pieces_lt 30 n (by decide)
  unfold maxPckts
  omega

lemma Receiver.WF.step {r : Receiver} (h : r.WF) (p : Packet) : (r.step p).WF := by
  unfold Receiver.step
  by_cases hl : p.isLocal = true
  · rw [if_pos hl]
    exact h
  rw [if_neg hl]
  by_cases hc : p.isCmd = true
  · rw [if_pos hc]
    by_cases ha : p.isAck = true
    · rw [if_pos ha]
      exact h
    rw [if_neg ha]
    intro ho
    by_cases hr : r.cur.hasCmd = true
    · simp [MsgT.openCmd, hr, MsgT.zero] at ho
    · have hsize := npckts_le_maxPckts p.size_lt
      simp only [MsgT.openCmd, if_neg hr]
      omega
  rw [if_neg hc]
  by_cases ho : r.cur.hasCmd = true
  · rw [if_neg (not_not_intro ho)]
    obtain ⟨hmax,hlt,hcur⟩ := h ho
    by_cases hd : (r.cur.store p).curPckts = (r.cur.store p).totPckts
    · rw [if_pos hd]
      exact fun hz => by cases hz
    · rw [if_neg hd]
      have hstore : (r.cur.store p).curPckts = (r.cur.curPckts + 1) % 2^32 := rfl
      have htot : (r.cur.store p).totPckts = r.cur.totPckts := rfl
      rw [hstore, htot] at hd
      refine fun _ => ⟨hmax, Nat.mod_lt _ (by decide), ?_⟩
      dsimp only
      rw [hstore, htot]
      unfold maxPckts at hmax
      omega
  · rw [if_pos ho]
    exact fun hr => absurd hr ho

/-- The three ways a packet can miss its block are the only ones. -/
theorem room_iff_fits {r : Receiver} (h : r.WF) (ho : r.cur.hasCmd = true) (p : Packet) :
    Room p r.cur ↔ Fits p r.cur := by
  obtain ⟨hmax,hlt,hcur⟩ := h ho
  unfold Room Fits
  refine and_congr_right (fun hn => ?_)
  rcases Nat.eq_zero_or_pos r.cur.totPckts with hz | hpos
  · have hne : ¬ (0 = maxPckts) := by decide
    simp only [hz, hne, Nat.mul_zero, Nat.zero_mod, true_imp_iff, false_imp_iff, and_true]
    generalize 30*r.cur.curPckts % 2^32 = off
    omega
  · have hlt' := hcur.resolve_left (Nat.ne_of_gt hpos)
    have hoff : 30*r.cur.curPckts % 2^32 = 30*r.cur.curPckts :=
      Nat.mod_eq_of_lt (by unfold maxPckts at hmax; omega)
    rw [hoff]
    rcases Nat.lt_or_eq_of_le hmax with hfit | hwrap
    · have hsize : 30*r.cur.totPckts % 2^32 = 30*r.cur.totPckts :=
        Nat.mod_eq_of_lt (by unfold maxPckts at hfit; omega)
      rw [hsize]
      refine iff_of_true ⟨fun hz => absurd hz (Nat.ne_of_gt hpos), fun hw => ?_⟩ (by omega)
      exact absurd hw (Nat.ne_of_lt hfit)
    · have hsize : 30*maxPckts % 2^32 = 14 := rfl
      rw [hwrap, hsize]
      by_cases hz : r.cur.curPckts = 0
      · simp only [hz, if_true]
        have hne : maxPckts ≠ 0 := by decide
        simp only [hne, false_imp_iff, true_and, true_imp_iff]
        omega
      · simp only [hz, if_false]
        have hne : maxPckts ≠ 0 := by decide
        simp only [hne, false_imp_iff, true_and, true_imp_iff]
        omega

instance (p : Packet) (r : Receiver) : Decidable (Stores p r) :=
  inferInstanceAs (Decidable (_ ∧ _ ∧ _))

instance (p : Packet) (m : MsgT) : Decidable (Room p m) :=
  inferInstanceAs (Decidable (_ ∧ (_ → _) ∧ (_ → _)))

/-- Every data packet of one sender that meets an open message has room in it. -/
def Receiver.AllRoom : List Packet → Receiver → Prop
  | [], _ => True
  | p::ps, r => (Stores p r → Room p r.cur) ∧ AllRoom ps (r.step p)

instance Receiver.decAllRoom : (ps : List Packet) → (r : Receiver) → Decidable (r.AllRoom ps)
  | [], _ => .isTrue trivial
  | p::ps, r => have := decAllRoom ps (r.step p); inferInstanceAs (Decidable (_ ∧ _))

/-- The packets that entry `i` gets to see. -/
abbrev packetsOf (i : Fin 17) (ps : List Packet) : List Packet := ps.filter (fun p => p.fd = i)

/-- Every packet comes from a sender in `S` or from the local ESP. -/
def SentBy (S : Fin 17 → Prop) (ps : List Packet) : Prop := ∀ p ∈ ps, p.isLocal = true ∨ S p.fd

-- over the list: there are too many packets to try them all
instance (S : Fin 17 → Prop) [DecidablePred S] (ps : List Packet) : Decidable (SentBy S ps) :=
  List.decidableBAll (fun p : Packet => p.isLocal = true ∨ S p.fd) ps

section Runs
variable {h : Heap} {S : Fin 17 → Prop} {s t : Board} {o : Owner} {rs : Fin 17 → Receiver}
  {p : Packet} {ps : List Packet} {cs : List Copy}

lemma run_packetsOf (rs : Fin 17 → Receiver) (p : Packet) (ps : List Packet) (i : Fin 17) :
    (rs i).run (packetsOf i (p::ps)) =
      (Function.update rs p.fd ((rs p.fd).step p) i).run (packetsOf i ps) := by
  by_cases hi : p.fd = i
  · subst hi; simp [packetsOf]
  · simp [packetsOf, hi, Function.update_of_ne (Ne.symm hi)]

lemma allRoom_packetsOf (rs : Fin 17 → Receiver) (p : Packet) (ps : List Packet) :
    (∀ i, (rs i).AllRoom (packetsOf i (p::ps))) ↔ (Stores p (rs p.fd) → Room p (rs p.fd).cur) ∧
      ∀ i, (Function.update rs p.fd ((rs p.fd).step p) i).AllRoom (packetsOf i ps) := by
  have hcase : ∀ i, (rs i).AllRoom (packetsOf i (p::ps)) ↔
      (i = p.fd → (Stores p (rs p.fd) → Room p (rs p.fd).cur)) ∧
        (Function.update rs p.fd ((rs p.fd).step p) i).AllRoom (packetsOf i ps) := by
    intro i
    by_cases hi : i = p.fd
    · subst hi; simp [packetsOf, Receiver.AllRoom]
    · simp [packetsOf, hi, Ne.symm hi]
  simp only [hcase]
  exact ⟨fun hc => ⟨(hc p.fd).1 rfl, fun i => (hc i).2⟩, fun hc i => ⟨fun _ => hc.1, hc.2 i⟩⟩

/-- The copy of a packet is in bounds exactly if the packet has room. -/
lemma reported_inBounds {r : Receiver} {c : Option Copy} (hwf : r.WF) (hrep : Reported p r c) :
    (∀ d ∈ c.toList, d.InBounds) ↔ (Stores p r → Room p r.cur) := by
  by_cases hst : Stores p r
  · obtain ⟨d,rfl,hd⟩ := hrep.1 hst
    simp [hst, hd, room_iff_fits hwf hst.2.2]
  · rw [hrep.2 hst]
    simp [hst]

lemma update_wf (hwf : ∀ i, (rs i).WF) (p : Packet) (i : Fin 17) :
    (Function.update rs p.fd ((rs p.fd).step p) i).WF := by
  by_cases hi : i = p.fd
  · subst hi; rw [Function.update_self]; exact (hwf _).step p
  · rw [Function.update_of_ne hi]; exact hwf i

/-- Runs: all copies are in bounds exactly if all packets have room, and then every entry is the
receiver of its own sender's packets. -/
theorem receive_sim (hS : Apart h S) (hps : SentBy S ps) (hsim : Sim h S s o rs)
    (hwf : ∀ i, (rs i).WF) (hrun : s.receive h ps = some (t,cs)) :
    ((∀ c ∈ cs, c.InBounds) ↔ ∀ i, (rs i).AllRoom (packetsOf i ps)) ∧
      ((∀ i, (rs i).AllRoom (packetsOf i ps)) →
        ∃ o', Sim h S t o' (fun i => (rs i).run (packetsOf i ps))) := by
  induction ps generalizing s o rs cs with
  | nil =>
    cases hrun
    exact ⟨by simp [packetsOf, Receiver.AllRoom], fun _ => ⟨o, by simpa [packetsOf] using hsim⟩⟩
  | cons p ps ih =>
    obtain ⟨⟨s₁,c⟩,hstep,hrest⟩ := Option.bind_eq_some_iff.mp hrun
    obtain ⟨⟨t',cs'⟩,hrun',hres⟩ := Option.bind_eq_some_iff.mp hrest
    obtain ⟨rfl,rfl⟩ := Prod.mk.inj (Option.some.inj hres)
    have hp := hps p (List.mem_cons_self ..)
    have hps' : SentBy S ps := fun q hq => hps q (List.mem_cons_of_mem _ hq)
    obtain ⟨hrep,hsim'⟩ := handler_sim hsim hS hp hstep
    rw [allRoom_packetsOf, funext (run_packetsOf rs p ps)]
    simp only [List.forall_mem_append, reported_inBounds (hwf _) hrep]
    by_cases hroom : Stores p (rs p.fd) → Room p (rs p.fd).cur
    · obtain ⟨o',hs₁⟩ := hsim' (fun hst => (room_iff_fits (hwf _) hst.2.2 p).mp (hroom hst))
      obtain ⟨hiff,hsim₂⟩ := ih hps' hs₁ (update_wf hwf p) hrun'
      exact ⟨and_congr_right (fun _ => hiff), fun hc => hsim₂ hc.2⟩
    · exact ⟨iff_of_false (fun hc => hroom hc.1) (fun hc => hroom hc.1),
        fun hc => absurd hc.1 hroom⟩

/-- A run whose packets have room returns as long as there is memory for them. -/
theorem receive_returns (hS : Apart h S) (hps : SentBy S ps) (hsim : Sim h S s o rs)
    (hwf : ∀ i, (rs i).WF) (hroom : ∀ i, (rs i).AllRoom (packetsOf i ps))
    (hle : s.brk + (ps.map (need h)).sum ≤ h.limit) :
    ∃ t cs, s.receive h ps = some (t,cs) ∧ t.brk ≤ s.brk + (ps.map (need h)).sum := by
  induction ps generalizing s o rs with
  | nil => exact ⟨s, [], rfl, Nat.le_add_right ..⟩
  | cons p ps ih =>
    rw [List.map_cons, List.sum_cons] at hle ⊢
    have hp := hps p (List.mem_cons_self ..)
    obtain ⟨s₁,c,hstep,hbrk⟩ := handler_returns hsim hp (by omega)
    rw [allRoom_packetsOf] at hroom
    obtain ⟨o',hs₁⟩ := (handler_sim hsim hS hp hstep).2
      (fun hst => (room_iff_fits (hwf _) hst.2.2 p).mp (hroom.1 hst))
    obtain ⟨t,cs,hrun,hbrk'⟩ := ih (fun q hq => hps q (List.mem_cons_of_mem _ hq)) hs₁
      (update_wf hwf p) hroom.2 (by omega)
    refine ⟨t, c.toList ++ cs, ?_, by omega⟩
    rw [Board.receive, hstep]
    dsimp only [Option.bind_eq_bind, Option.bind_some]
    rw [hrun]
    rfl

end Runs

section FromInit
variable {h : Heap} {S : Fin 17 → Prop} {junk : ℕ → UInt8} {base : ℕ} {s t : Board}
  {ps : List Packet} {cs : List Copy}

/-- Every `memcpy` of a run from the initial table reads data bytes of its packet only and
writes inside its message's block only, exactly if every sender's packets have room. -/
theorem copies_inBounds_iff (hS : Apart h S) (hbase : 0 < base)
    (hinit : Board.initFileTable h junk base = some s) (hps : SentBy S ps)
    (hrun : s.receive h ps = some (t,cs)) :
    (∀ c ∈ cs, c.InBounds) ↔ ∀ i, Receiver.init.AllRoom (packetsOf i ps) :=
  (receive_sim hS hps (init_sim hS hbase hinit) (fun _ => init_wf) hrun).1

/-- Then an entry shows what its own sender's packets make of a fresh receiver. -/
theorem receive_view (hS : Apart h S) (hbase : 0 < base)
    (hinit : Board.initFileTable h junk base = some s) (hps : SentBy S ps)
    (hroom : ∀ i, Receiver.init.AllRoom (packetsOf i ps)) (hrun : s.receive h ps = some (t,cs))
    {i : Fin 17} (hi : S i) : t.view i = Receiver.init.run (packetsOf i ps) := by
  obtain ⟨o,hsim⟩ := (receive_sim hS hps (init_sim hS hbase hinit) (fun _ => init_wf) hrun).2 hroom
  obtain ⟨a,ids,he⟩ := hsim.entries i hi
  exact he.view_eq

end FromInit

/-- A memory of a megabyte with 4 byte rounding. -/
def smallHeap : Heap := ⟨4, 2^20, by decide, by decide, by decide⟩

/-- Senders five entries apart do not share a byte of their records. -/
def fifths (i : Fin 17) : Prop := i ∈ [0,5,10]

instance : DecidablePred fifths := fun i => inferInstanceAs (Decidable (i ∈ [0,5,10]))

lemma fifths_apart : Apart smallHeap fifths := ⟨by decide, by decide⟩

def cleared : ℕ → UInt8 := fun _ => 0

lemma small_init : ∃ s, Board.initFileTable smallHeap cleared 4096 = some s ∧ s.brk = 4504 := by
  have hsome : (Board.initFileTable smallHeap cleared 4096).isSome = true := by decide +kernel
  obtain ⟨s,hs⟩ := Option.isSome_iff_exists.mp hsome
  exact ⟨s, hs, (initFileTable_mem hs).brk.trans (by decide)⟩

/-- A command packet and a data packet of one byte, from node `i`. -/
def command (i : UInt8) (size : ℕ) : Packet := espCmndPckt cmdNbytes 2 i 0 espSendData size
def byteFrom (i : UInt8) : Packet := espPckt 1 2 i [7]

/-- Two messages, one inside the other. -/
def nested : List Packet := [command 0 1, command 5 1, byteFrom 5, byteFrom 0]

theorem copies_inBounds_iff_nested : ∃ s t cs,
    Board.initFileTable smallHeap cleared 4096 = some s ∧ s.receive smallHeap nested = some (t,cs) ∧
      ∀ c ∈ cs, c.InBounds := by
  obtain ⟨s,hs,hbrk⟩ := small_init
  have hsent : SentBy fifths nested := by decide
  have hroom : ∀ i, Receiver.init.AllRoom (packetsOf i nested) := by decide
  obtain ⟨t,cs,hrun,_⟩ := receive_returns fifths_apart hsent
    (init_sim fifths_apart (by decide) hs) (fun _ => init_wf) hroom (by rw [hbrk]; decide)
  exact ⟨s, t, cs, hs, hrun,
    (copies_inBounds_iff fifths_apart (by decide) hs hsent hrun).mpr hroom⟩

/-- A command without data, then a byte: it is written into a block of no bytes. -/
theorem empty_command_overruns : ∃ s t cs,
    Board.initFileTable smallHeap cleared 4096 = some s ∧
      s.receive smallHeap [command 5 0, byteFrom 5] = some (t,cs) ∧ ¬ ∀ c ∈ cs, c.InBounds := by
  obtain ⟨s,hs,hbrk⟩ := small_init
  have hsim := init_sim fifths_apart (by decide) hs
  obtain ⟨s₁,c₁,hstep₁,hbrk₁⟩ := handler_returns (p := command 5 0) hsim (by decide)
    (by rw [hbrk]; decide)
  obtain ⟨o,hsim₁⟩ := (handler_sim hsim fifths_apart (by decide) hstep₁).2
    (fun hst => absurd hst (by decide))
  have hneed : need smallHeap (command 5 0) = 32 := by decide
  have hneed' : need smallHeap (byteFrom 5) = 52 := by decide
  have hlimit : smallHeap.limit = 2^20 := rfl
  obtain ⟨s₂,c₂,hstep₂,_⟩ := handler_returns (p := byteFrom 5) hsim₁ (by decide) (by omega)
  obtain ⟨d,rfl,hd⟩ := (handler_sim hsim₁ fifths_apart (by decide) hstep₂).1.1 (by decide)
  refine ⟨s, s₂, c₁.toList ++ [d], hs, by simp [Board.receive, hstep₁, hstep₂], fun hall => ?_⟩
  have hin := hd.mp (hall d (by simp))
  exact absurd hin.2 (by decide)

/-- Two runs that agree on the packets of sender `i` end with the same entry `i`, whatever the
other senders did in between. -/
theorem entries_isolated {h : Heap} {S S' : Fin 17 → Prop} {junk junk' : ℕ → UInt8}
    {base base' : ℕ} {s s' t t' : Board} {ps qs : List Packet} {cs cs' : List Copy} {i : Fin 17}
    (hS : Apart h S) (hS' : Apart h S') (hi : S i) (hi' : S' i) (hbase : 0 < base)
    (hbase' : 0 < base') (hinit : Board.initFileTable h junk base = some s)
    (hinit' : Board.initFileTable h junk' base' = some s') (hps : SentBy S ps)
    (hqs : SentBy S' qs) (hroom : ∀ j, Receiver.init.AllRoom (packetsOf j ps))
    (hroom' : ∀ j, Receiver.init.AllRoom (packetsOf j qs)) (hrun : s.receive h ps = some (t,cs))
    (hrun' : s'.receive h qs = some (t',cs')) (hsame : packetsOf i ps = packetsOf i qs) :
    t.view i = t'.view i := by
  rw [receive_view hS hbase hinit hps hroom hrun hi,
    receive_view hS' hbase' hinit' hqs hroom' hrun' hi', hsame]

theorem entries_isolated_nested : ∃ s t t' cs cs',
    Board.initFileTable smallHeap cleared 4096 = some s ∧ s.receive smallHeap nested = some (t,cs) ∧
      s.receive smallHeap [command 5 1, byteFrom 5] = some (t',cs') ∧ t.view 5 = t'.view 5 := by
  obtain ⟨s,hs,hbrk⟩ := small_init
  have hsent : SentBy fifths nested := by decide
  have hsent' : SentBy fifths [command 5 1, byteFrom 5] := by decide
  have hroom : ∀ i, Receiver.init.AllRoom (packetsOf i nested) := by decide
  have hroom' : ∀ i, Receiver.init.AllRoom (packetsOf i [command 5 1, byteFrom 5]) := by decide
  have hsim := init_sim fifths_apart (by decide) hs
  obtain ⟨t,cs,hrun,_⟩ := receive_returns fifths_apart hsent hsim (fun _ => init_wf) hroom
    (by rw [hbrk]; decide)
  obtain ⟨t',cs',hrun',_⟩ := receive_returns fifths_apart hsent' hsim (fun _ => init_wf) hroom'
    (by rw [hbrk]; decide)
  exact ⟨s, t, t', cs, cs', hs, hrun, hrun', entries_isolated fifths_apart fifths_apart
    (by decide) (by decide) (by decide) (by decide) hs hs hsent hsent' hroom hroom' hrun hrun'
    rfl⟩

/-- One command packet from node 0 opens the message of node 1. -/
theorem command_opens_neighbour : ∃ s t cs,
    Board.initFileTable smallHeap cleared 4096 = some s ∧
      s.receive smallHeap [command 0 30] = some (t,cs) ∧ packetsOf 1 [command 0 30] = [] ∧
        (s.view 1).cur.hasCmd = false ∧ (t.view 1).cur.hasCmd = true := by
  obtain ⟨s,hs,_⟩ := small_init
  have hbefore : (Board.initFileTable smallHeap cleared 4096).map
      (fun s => (s.view 1).cur.hasCmd) = some false := by decide +kernel
  have hafter : ((Board.initFileTable smallHeap cleared 4096).bind
      (fun s => s.receive smallHeap [command 0 30])).map (fun r => (r.1.view 1).cur.hasCmd) =
        some true := by decide +kernel
  rw [hs, Option.map_some, Option.some.injEq] at hbefore
  rw [hs, Option.bind_some] at hafter
  obtain ⟨⟨t,cs⟩,hrun,hview⟩ := Option.map_eq_some_iff.mp hafter
  exact ⟨s, t, cs, hs, hrun, by decide, hbefore, hview⟩

end DistributedPis
