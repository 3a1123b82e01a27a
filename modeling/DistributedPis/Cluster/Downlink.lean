import DistributedPis.Cluster.Programs
import DistributedPis.Esp.Client

/-! The way down to a client's Pi. Its ESP relays nothing, so all that the Pi ever gets are statuses
and the fixed text that answers a request for the list. -/
namespace DistributedPis
open Library

/-- The text of `connectedListPckts`. -/
def listText : List UInt8 := [65,66,67,68,69,70,71,72,73,74,75,76,77,78,79,80]

/-- No entry of the table has a message but that of node 1, and there is only the fixed text. -/
structure Unheard (t : FileTable) : Prop where
  others : ∀ i, i ≠ 1 → (t.fds i).msgQ.empty = true
  list : ∃ ms, t.Queued 1 ms ∧ ∀ m ∈ ms, Carries m listText

section Own
variable {ps : List Packet} {p : Packet} {r : Receiver}

lemma isOwn_of_fd (h : IsOwn p) (hfd : p.fd = 1) : p ∈ Esp.connectedListPckts := by
  rcases h with ⟨d,rfl⟩ | hmem
  · have hlocal : (Esp.msgPi d).fd = 16 := by simp [Packet.fd, msgPi_local]
    rw [hlocal] at hfd
    cases hfd
  · exact hmem

/-- Statuses do not touch the queue. -/
lemma run_local (hps : AllLocal ps) (r : Receiver) : (r.run ps).queue = r.queue := by
  induction ps generalizing r with
  | nil => rfl
  | cons p ps ih =>
    have hp : r.step p = {r with status := p.cmnd} := by
      rw [Receiver.step, if_pos (hps p (List.mem_cons_self ..))]
    rw [Receiver.run_cons, hp, ih fun q hq => hps q (List.mem_cons_of_mem _ hq)]

/-- An entry that has only seen the packets of the list. -/
structure Listing (r : Receiver) : Prop where
  cur : r.cur = .zero ∨ r.cur = .opened 16
  queue : ∀ m ∈ r.queue, Carries m listText

lemma step_listing (h : Listing r) (hp : p ∈ Esp.connectedListPckts) : Listing (r.step p) := by
  obtain ⟨cur,queue,status⟩ := r
  obtain ⟨hcur,hqueue⟩ := h
  dsimp only at hcur hqueue
  simp only [Esp.connectedListPckts, List.mem_cons, List.not_mem_nil, or_false] at hp
  rcases hp with rfl | rfl
  · have hstep : Receiver.step ⟨cur,queue,status⟩ (espCmndPckt 9 1 1 0 0xf 16) =
        ⟨cur.openCmd (espCmndPckt 9 1 1 0 0xf 16), queue, status⟩ := rfl
    rw [hstep]
    refine ⟨?_, hqueue⟩
    rcases hcur with rfl | rfl
    · exact .inr rfl
    · exact .inl rfl
  · rcases hcur with rfl | rfl
    · exact ⟨.inl rfl, hqueue⟩
    · refine ⟨.inl rfl, fun m hm => ?_⟩
      rcases List.mem_cons.mp hm with rfl | hm
      · exact ⟨rfl, _, rfl, rfl⟩
      · exact hqueue m hm

lemma run_listing (h : Listing r) (hps : ∀ p ∈ ps, p ∈ Esp.connectedListPckts) :
    Listing (r.run ps) := by
  induction ps generalizing r with
  | nil => exact h
  | cons p ps ih =>
    exact ih (step_listing h (hps p (List.mem_cons_self ..)))
      fun q hq => hps q (List.mem_cons_of_mem _ hq)

/-- Packets that the ESP itself makes bring no other message, in any order. -/
theorem receive_own (hps : ∀ p ∈ ps, IsOwn p) : Unheard (FileTable.init.receive ps) := by
  constructor
  · intro i hi
    refine (receive_queued i ps).empty_iff.mpr ?_
    refine run_local (fun p hp => ?_) .init
    obtain ⟨hp,hfd⟩ := List.mem_filter.mp hp
    have hfd : p.fd = i := by simpa using hfd
    rcases hps p hp with ⟨d,rfl⟩ | hmem
    · exact msgPi_local d
    · have hone : p.fd = 1 := by
        rcases isOwn_fd (hps p hp) with hfd | hfd
        · simp only [Esp.connectedListPckts, List.mem_cons, List.not_mem_nil, or_false] at hmem
          rcases hmem with rfl | rfl <;> exact absurd hfd (by decide)
        · exact hfd
      exact absurd (hfd.symm.trans hone) hi
  · have hinit : Listing .init := ⟨.inl rfl, by simp [Receiver.init]⟩
    refine ⟨_, receive_queued 1 ps, (run_listing hinit fun p hp => ?_).queue⟩
    obtain ⟨hp,hfd⟩ := List.mem_filter.mp hp
    exact isOwn_of_fd (hps p hp) (by simpa using hfd)

end Own

section Runs
variable {conns : ℕ → Conn} {es : List Event} {m : Machine}

/-- All that the client's ESP has written to its Pi is its own. -/
theorem runClient_own (h : es.foldlM Machine.stepClient (.start conns) = some m) :
    ∃ ps, (∀ p ∈ ps, IsOwn p) ∧ m.esp.toPi = wire ps := by
  have hrun : m.Bare ∧ ∃ ps, (∀ p ∈ ps, IsOwn p) ∧ m.esp.toPi = wire ps := by
    refine foldlM_invariant (P := fun m => m.Bare ∧ ∃ ps, (∀ p ∈ ps, IsOwn p) ∧
      m.esp.toPi = wire ps) ?_ ⟨bare_start conns, [], by simp, rfl⟩ h
    rintro m e m' ⟨hbare,ps,hps,hline⟩ hstep
    refine ⟨stepClient_bare hbare hstep, ?_⟩
    cases e with
    | arrive c bs => cases hstep; exact ⟨ps, hps, hline⟩
    | link c up => cases hstep; exact ⟨ps, hps, hline⟩
    | go env before during =>
      obtain ⟨-,-,-,rfl⟩ | ⟨-,-,rfl⟩ | ⟨-,-,rfl⟩ | ⟨-,t,a,ht,rfl⟩ := goClient_cases hbare hstep
      · exact ⟨ps, hps, hline⟩
      · exact ⟨ps, hps, hline⟩
      · exact ⟨ps, hps, hline⟩
      · obtain ⟨⟨⟨qs,hqs,hmore⟩,-⟩,-⟩ := Esp.loopPi_reports ht
        refine ⟨ps ++ qs, fun p hp => ?_, ?_⟩
        · rcases List.mem_append.mp hp with hp | hp
          · exact hps p hp
          · exact hqs p hp
        · rw [hmore, hline, wire, wire, wire, List.flatMap_append]
  exact hrun.2

/-- Whatever the server and other clients send, whatever the Pi asks for and however often it looks,
a client's Pi has no message from another node, and `recProgram` goes on waiting. -/
theorem recProgram_unheard (h : es.foldlM Machine.stepClient (.start conns) = some m)
    {serverFD : UInt8} (hfd : 2 ≤ serverFD ∧ serverFD ≤ 16) (ks : List ℕ) :
    (∀ k, Unheard (FileTable.init.receive ((sentPackets m.esp.toPi).take k))) ∧
    recProgram serverFD
      (ks.map fun k => FileTable.init.receive ((sentPackets m.esp.toPi).take k)) = some none := by
  obtain ⟨ps,hps,hline⟩ := runClient_own h
  have hpackets : sentPackets m.esp.toPi = ps := by
    have hwhole := @sentPackets_wire ps [] (by simp)
    rwa [List.append_nil, ← hline] at hwhole
  rw [hpackets]
  have hunheard (k : ℕ) : Unheard (FileTable.init.receive (ps.take k)) :=
    receive_own fun p hp => hps p (List.mem_of_mem_take hp)
  refine ⟨hunheard, ?_⟩
  have hlo : 2 ≤ serverFD.toNat := hfd.1
  have hhi : serverFD.toNat ≤ 16 := hfd.2
  have hne : serverFD ≠ 0 := by
    rintro rfl
    exact absurd hfd.1 (by decide)
  rw [recProgram, if_neg hne]
  have hwaits : waitMsg (⟨serverFD.toNat, by omega⟩ : Fin 17).val (ks.map fun k =>
      FileTable.init.receive (ps.take k)) = some none := by
    apply waitMsg_waits
    intro t ht
    obtain ⟨k,-,rfl⟩ := List.mem_map.mp ht
    refine (hunheard k).others _ fun heq => ?_
    have hval : serverFD.toNat = 1 := congrArg Fin.val heq
    omega
  exact hwaits

/-- A client joins the network, and a packet comes from the server. -/
def joinedRun : List Event := connectRun ++ [serverPacket] ++ waiting 1

theorem recProgram_unheard_joined : ∃ m,
    joinedRun.foldlM Machine.stepClient (.start openConns) = some m ∧
    (∀ k, Unheard (FileTable.init.receive ((sentPackets m.esp.toPi).take k))) ∧
    recProgram 2 ([0,1].map fun k => FileTable.init.receive ((sentPackets m.esp.toPi).take k)) =
      some none := by
  obtain ⟨m,hm⟩ : ∃ m, joinedRun.foldlM Machine.stepClient (.start openConns) = some m :=
    Option.isSome_iff_exists.mp rfl
  exact ⟨m, hm, recProgram_unheard hm (by decide) [0,1]⟩

end Runs
end DistributedPis
