import DistributedPis.Esp.Loop
import DistributedPis.Esp.Relay
import DistributedPis.Esp.Server

/-! The way up: a client's Pi sends messages with `send_cmd`, and its ESP writes them to the TCP
connection with the server. What is on the connection after any run of `loop()` is the beginning of
what the Pi sent, one whole message after the other. -/
namespace DistributedPis
namespace Esp
open Library

/-- The handle `client` is connection `c`, which is up, and no packet of the server waits. -/
structure Linked (s : Esp) (c : ℕ) : Prop where
  client : s.client = some c
  live : (s.conns c).connected = true
  quiet : (s.conns c).incoming.length ≤ 31

/-- A message for another Pi that `send_msg` relays unchanged. -/
structure Transferable (m : Msg) : Prop where
  cmd : m.cmd = espSendData
  data : m.payload ≠ []
  intact : RelayedIntact m.toId m.fromId m.payload

section Messages
variable {m : Msg}

theorem Transferable.length_lt (h : Transferable m) : m.payload.length < 30*2^27 := by
  rcases h.intact with hle | ⟨-,hlt,-⟩
  · omega
  · exact hlt

theorem Transferable.sendable (h : Transferable m) : Sendable m := by
  refine ⟨h.cmd ▸ by decide, ?_⟩
  unfold maxPayload
  rcases h.intact with hle | ⟨hdvd,hlt,-⟩ <;> omega

/-- The bytes that `send_msg` fetches are those of the data packets. -/
theorem Transferable.rows (h : Transferable m) :
    (List.range (dataPckts m.toId m.fromId m.payload).length).flatMap (fun i =>
        (List.range 32).map fun k => pcktByte (dataPckts m.toId m.fromId m.payload) (k+i*k)) =
      wire (dataPckts m.toId m.fromId m.payload) := by
  rw [wire_eq_range, rows_inj, dataPckts_length]
  exact (copies_iff_intact m.toId m.fromId m.payload h.length_lt).mpr h.intact

end Messages

section Steps
variable {env : Env} {before during : List UInt8} {s t : Esp} {c : ℕ} {a : Act} {m : Msg}

theorem relays_linked (h : s.Linked c) : s.relays false env = some s := by
  have havail : ¬31 < s.available s.client := by
    rw [h.client]
    exact Nat.not_lt.mpr h.quiet
  simp only [relays, Bool.false_eq_true, if_false, havail]

/-- Such a client comes to the end of every iteration. -/
theorem Linked.unhindered (h : s.Linked c) {t : Tick} (hok : Undisturbed s t) :
    Unhindered false s t := by
  have havail : ¬31 < s.available s.client := by
    rw [h.client]
    exact Nat.not_lt.mpr h.quiet
  refine ⟨hok, fun _ hwaits => absurd hwaits havail, fun _ _ => .inl ?_⟩
  simp only [HasClient, Bool.false_eq_true, if_false, havail]
  rw [h.client]
  exact h.live

/-- The message goes to the connection and everything else stays. -/
theorem runCmnd_linked (h : s.Linked c) (hcmnd : s.fromPi.cmnd = espSendData)
    (hrun : s.runCmnd false env during = some t) : t.Linked c ∧
      (t.conns c).written = (s.conns c).written ++ msgBytes s.fromPi := by
  have hexec : s.execute false env =
      some ({s with client := some c}.writeClient (some c) (msgBytes s.fromPi)) := by
    have hup : s.connected (some c) = true := h.live
    simp [execute, hcmnd, espSendData, espServerInit, sendMsg, hup, h.client]
  rw [runCmnd, hexec] at hrun
  cases hrun
  have hlive := h.live
  refine ⟨⟨?_, ?_, ?_⟩, ?_⟩
  · simp [clean, writeClient, hlive]
  · simp [clean, writeClient, hlive]
  · simpa [clean, writeClient, hlive] using h.quiet
  · simp [clean, writeClient, hlive]

/-- A complete message in the buffer is written as it was sent. -/
theorem runCmnd_message (h : s.Linked c) (hm : Transferable m) {malloc : Option (ℕ → Packet)}
    {hdr : Packet} {ds : List Packet} (hp : m.pckts = hdr::ds)
    (hb : s.fromPi = collected malloc hdr ds ds.length) (halloc : ds ≠ [] → malloc.isSome = true)
    (hrun : s.runCmnd false env during = some t) :
    t.Linked c ∧ (t.conns c).written = (s.conns c).written ++ wire m.pckts := by
  have hsize : m.payload.length < 2^32 := hm.length_lt.trans (by decide)
  obtain ⟨hdr',ds',hsend,hmsg,hds,hcmnd,hto⟩ :=
    cmdPckts_isMessage m.heap m.cmd m.toId m.fromId m.payload (hm.cmd ▸ by decide) hsize
  obtain ⟨rfl,rfl⟩ := List.cons.inj (hp.symm.trans hsend)
  have hfits : 32*ds.length < 2^32 := by
    rw [hds, dataPckts_length]
    exact (npckts_lt_iff _).mpr hm.sendable.size
  obtain ⟨cells,rfl⟩ : ∃ cells, malloc = some cells := by
    apply Option.isSome_iff_exists.mp (halloc ?_)
    apply List.ne_nil_of_length_pos
    rw [hds, dataPckts_length]
    exact pieces_pos 30 _ (by decide) (List.length_pos_iff.mpr hm.data)
  have hcollected : s.fromPi.cmnd = espSendData := by
    rw [hb, collected, checkFull_cmnd]
    exact hcmnd.trans hm.cmd
  obtain ⟨hlinked,hwritten⟩ := runCmnd_linked h hcollected hrun
  refine ⟨hlinked, ?_⟩
  -- the same message through an idle sketch
  have hready : Ready false {env with malloc := some cells} {s with fromPi := idleBuff hdr}
      m.toId c := ⟨⟨hdr,rfl⟩, rfl, by rw [h.client]; exact h.live, h.client, h.live⟩
  obtain ⟨u,hu,hrows⟩ : ∃ u, relay false {env with malloc := some cells} during (hdr::ds)
      {s with fromPi := idleBuff hdr} = some u ∧ _ :=
    relay_of_fits hready hmsg (hcmnd.trans hm.cmd) hto hfits
  have hparse : parseAll (some cells) (hdr::ds) {s with fromPi := idleBuff hdr} = some s := by
    rw [parseAll, List.foldlM_cons, parsePacket_header hmsg rfl]
    refine (parseAll_data hmsg rfl hfits).trans ?_
    rw [← hb]
  have hruns : s.runCmnd false {env with malloc := some cells} during = some u := by
    rw [relay] at hu
    simpa only [hparse, Option.bind_some] using hu
  have hsame := (runCmnd_linked h hcollected hruns).2
  rw [hrows] at hsame
  have hbytes := List.append_cancel_left hsame
  rw [hwritten, ← hbytes, hds, hm.rows, hp, wire_cons, hds]

theorem parsePacket_linked {malloc : Option (ℕ → Packet)} {p : Packet} (h : s.Linked c)
    (hparse : s.parsePacket malloc p = some t) : t.Linked c ∧ t.conns = s.conns := by
  obtain ⟨b,bs,-,rfl⟩ := parsePacket_frame hparse
  exact ⟨⟨h.client, h.live, h.quiet⟩, rfl⟩

/-- What one iteration writes is the message it runs. -/
theorem loop_linked {ms : List Msg} {j : ℕ} (h : s.Linked c)
    (hms : ∀ m ∈ ms, ∃ m', Transferable m' ∧ m'.pckts = m.pckts)
    (hphase : Phase ms j s.fromPi) (hloop : s.loop false env before during = some (t,a)) :
    t.Linked c ∧ (t.conns c).written = (s.conns c).written ++ wire a.messages.flatten := by
  rw [loop_eq, relays_linked h, Option.bind_some] at hloop
  unfold loopPi at hloop
  dsimp only at hloop
  have hwaits : Linked {s with mySerial := s.mySerial ++ before} c := ⟨h.client, h.live, h.quiet⟩
  split_ifs at hloop with hrdy hlen
  · obtain ⟨u,hu,hloop⟩ := Option.bind_eq_some_iff.mp hloop
    cases hloop
    generalize hb : s.fromPi = b at hphase hrdy
    cases hphase with
    | idle => cases hrdy
    | @inside m ms malloc hdr ds k pckts wf fits alloc reached =>
      obtain rfl := (collected_runRdy reached).mp hrdy
      obtain ⟨m',hm',hsame⟩ := hms m (List.mem_cons_self ..)
      have hp := hsame.trans pckts
      obtain ⟨hlinked,hwritten⟩ := runCmnd_message hwaits hm' hp hb alloc hu
      refine ⟨hlinked, ?_⟩
      rw [hwritten, messages_collected alloc, hp]
      simp
  · obtain ⟨u,hu,hloop⟩ := Option.bind_eq_some_iff.mp hloop
    cases hloop
    have htaken : Linked {s with mySerial := (s.mySerial ++ before).drop 32 ++ during} c :=
      ⟨h.client, h.live, h.quiet⟩
    obtain ⟨hlinked,hconns⟩ := parsePacket_linked htaken hu
    refine ⟨hlinked, ?_⟩
    rw [hconns]
    simp [Act.messages]
  · cases hloop
    exact ⟨⟨h.client, h.live, h.quiet⟩, by simp [Act.messages]⟩

end Steps

section Runs
variable {ts : List Tick} {s u : Esp} {acts : List Act} {msgs ms : List Msg} {c j : ℕ}
  {rest : List UInt8}

/-- A run that nothing disturbs goes through and writes the messages that it runs. -/
theorem runLoop_linked (h : s.Linked c) (hsend : ∀ m ∈ ms, Sendable m)
    (hms : ∀ m ∈ ms, ∃ m', Transferable m' ∧ m'.pckts = m.pckts) (hphase : Phase ms j s.fromPi)
    (hok : AllUndisturbed false ts s)
    (hwire : wire (remaining ms j) = s.mySerial ++ arrivals ts ++ rest) :
    ∃ u acts, runLoop false ts s = some (u,acts) ∧ (u.conns c).written =
      (s.conns c).written ++ wire (acts.flatMap Act.messages).flatten := by
  induction ts generalizing s ms j with
  | nil => exact ⟨s, [], rfl, by simp⟩
  | cons t ts ih =>
    rw [arrivals_cons] at hwire
    obtain ⟨s',a,hstep⟩ := loop_returns hphase (h.unhindered hok.1)
    obtain ⟨ms',j',hmoves⟩ := loop_step hsend hphase hok.1 hwire hstep
    obtain ⟨hlinked,hwritten⟩ := loop_linked h hms hphase hstep
    have hms' : ∀ m ∈ ms', ∃ m', Transferable m' ∧ m'.pckts = m.pckts := by
      intro m hm
      have hmem : m.pckts ∈ ms.map Msg.pckts := by
        rw [hmoves.ran]
        exact List.mem_append_right _ (List.mem_map_of_mem hm)
      obtain ⟨m₀,hm₀,heq⟩ := List.mem_map.mp hmem
      obtain ⟨m',hm',hsame⟩ := hms m₀ hm₀
      exact ⟨m', hm', hsame.trans heq⟩
    obtain ⟨u,as,hrun,hrest⟩ := ih hlinked hmoves.sendable hms' hmoves.phase
      (hok.2 s' (next_eq hstep)) (by rw [hmoves.stream, List.append_assoc])
    refine ⟨u, a::as, runLoop_cons_iff.mpr ⟨s', a, as, hstep, hrun, rfl⟩, ?_⟩
    rw [hrest, hwritten]
    simp [wire, List.append_assoc]

/-- What is on the connection is a number of whole messages, the first ones that the Pi sent; two
iterations for each packet and one more after everything has arrived from the Pi, it is all of
them. -/
theorem uplink_written (h : s.Linked c) {q : Packet} (hidle : s.fromPi = idleBuff q)
    (hempty : s.mySerial = []) (hms : ∀ m ∈ msgs, Transferable m)
    (harr : arrivals ts <+: wire (msgs.flatMap Msg.pckts)) (hok : AllUndisturbed false ts s) :
    ∃ u acts, runLoop false ts s = some (u,acts) ∧
      (∃ k ≤ msgs.length, (u.conns c).written =
        (s.conns c).written ++ wire ((msgs.take k).flatMap Msg.pckts)) ∧
      ∀ xs ys, ts = xs ++ ys → arrivals xs = wire (msgs.flatMap Msg.pckts) →
        2*(msgs.flatMap Msg.pckts).length < ys.length →
          (u.conns c).written = (s.conns c).written ++ wire (msgs.flatMap Msg.pckts) := by
  have hsend : ∀ m ∈ msgs, Sendable m := fun m hm => (hms m hm).sendable
  have hphase : Phase msgs 0 s.fromPi := hidle ▸ Phase.idle msgs q
  obtain ⟨rest,hrest⟩ := id harr
  have hstart : wire (remaining msgs 0) = s.mySerial ++ arrivals ts ++ rest := by
    simpa [remaining, hempty] using hrest.symm
  obtain ⟨u,acts,hrun,hwritten⟩ :=
    runLoop_linked h hsend (fun m hm => ⟨m,hms m hm,rfl⟩) hphase hok hstart
  have hdelivered := delivered_of_run hsend hidle hempty harr hok hrun
  refine ⟨u, acts, hrun, ⟨(acts.flatMap Act.messages).length, ?_, ?_⟩, ?_⟩
  · simpa using hdelivered.inOrder.length_le
  · rw [hwritten, List.flatMap_def (f := Msg.pckts), List.map_take,
      ← List.prefix_iff_eq_take.mp hdelivered.inOrder]
  · intro xs ys hts hall hlong
    rw [hwritten, hdelivered.all xs ys hts hall hlong, ← List.flatMap_def]

end Runs
end Esp
end DistributedPis
