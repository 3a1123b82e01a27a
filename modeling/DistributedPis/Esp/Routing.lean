import DistributedPis.Esp.Server

/-! Where a message from the Pi goes in the server build. It is written to the client its id stands
for, but not before the handle `client`, which an accept, a relay or an earlier message has left
behind, is connected. -/
namespace DistributedPis
open Library
namespace Esp

/-- `send_msg` comes to its end, and the message is written to connection `c` and nowhere else. -/
def Routed (env : Env) (s : Esp) (c : ℕ) : Prop :=
  ∃ t, s.sendMsg true env = some t ∧ t.toPi = s.toPi ∧
    ∀ d, (t.conns d).written = (s.conns d).written ++ if d = c then msgBytes s.fromPi else []

/-- Messages of `b` are for the live connection `c`. -/
def Target (s : Esp) (b : PiBuff) (c : ℕ) : Prop :=
  s.wifiArr b.cmndPckt.espTo = some c ∧ (s.conns c).connected = true

/-- Some id has a live connection. -/
def Addressable (s : Esp) : Prop :=
  ∃ k < 16, ∃ c, s.wifiArr k = some c ∧ (s.conns c).connected = true

/-- The retry loop has nothing to do, or the server it calls is set and answers. -/
def Retries (env : Env) (s : Esp) : Prop :=
  s.connected s.client = true ∨ (s.serverIP ≠ .unset ∧ env.connect.isSome = true)

section Send
variable {env : Env} {s : Esp} {b : PiBuff} {c : ℕ}

/-- The id of a packet is any number below 16. -/
lemma exists_target_iff : (∃ b c, s.Target b c) ↔ s.Addressable := by
  constructor
  · rintro ⟨b,c,hslot,hlive⟩
    refine ⟨b.cmndPckt.espTo, ?_, c, hslot, hlive⟩
    have hlt := (b.cmndPckt 1).toNat_lt
    unfold Packet.espTo
    omega
  · rintro ⟨k,hk,c,hslot,hlive⟩
    refine ⟨idleBuff (espCmndPckt 9 (UInt8.ofNat k) 0 0 0 0), c, ?_, hlive⟩
    have hid : (idleBuff (espCmndPckt 9 (UInt8.ofNat k) 0 0 0 0)).cmndPckt.espTo = k := by
      simp [idleBuff]
      omega
    rwa [hid]

/-- Whoever the retry loop ends with, the message goes to its target. -/
lemma writeClient_written (hlive : (s.conns c).connected = true) (bs : List UInt8) (d : ℕ) :
    ((s.writeClient (some c) bs).conns d).written =
      (s.conns d).written ++ if d = c then bs else [] := by
  unfold writeClient
  dsimp only
  rw [if_pos hlive]
  by_cases hd : d = c
  · subst hd
    simp
  · simp [hd]

lemma routed_iff (h : s.Target b c) (henv : s.serverIP = .unset → env.connect = none) :
    Routed env {s with fromPi := b} c ↔ Retries env s := by
  have hretry : Retries env s ↔ s.connected s.client = true ∨ env.connect.isSome = true := by
    refine or_congr_right ⟨And.right, fun hconnect => ⟨fun hunset => ?_, hconnect⟩⟩
    rw [henv hunset] at hconnect
    cases hconnect
  have hends := sendMsg_isSome_iff true env {s with fromPi := b}
  rw [hretry]
  constructor
  · rintro ⟨t,ht,-⟩
    exact hends.mp (by rw [ht]; rfl)
  · intro hup
    obtain ⟨t,ht⟩ := Option.isSome_iff_exists.mp (hends.mpr hup)
    refine ⟨t, ht, ?_⟩
    rw [sendMsg_eq] at ht
    obtain ⟨client,-,rfl⟩ := Option.map_eq_some_iff.mp ht
    simp only [if_true, h.1]
    refine ⟨writeClient_toPi _ _ _, ?_⟩
    exact writeClient_written (s := {s with fromPi := b, client := some c}) h.2 (msgBytes b)

end Send
end Esp

open Esp

/-- When the sketch goes on in state `m`, it could send any message that is for a live connection;
`connect` fails for an address that is not set. -/
def SendsAll (m : Machine) (e : Event) : Prop :=
  ∀ env before during, e = .go env before during →
    (m.esp.serverIP = .unset → env.connect = none) →
      ∀ b c, m.esp.Target b c → Routed env {m.esp with fromPi := b} c

/-- The handle is good for a message, if there is anyone to send one to. -/
def HandleUp (m : Machine) (e : Event) : Prop :=
  ∀ env before during, e = .go env before during →
    (m.esp.serverIP = .unset → env.connect = none) → m.esp.Addressable → Retries env m.esp

lemma sendsAll_iff (m : Machine) (e : Event) : SendsAll m e ↔ HandleUp m e := by
  refine forall_congr' fun env => forall_congr' fun before => forall_congr' fun during =>
    forall_congr' fun _ => forall_congr' fun henv => ?_
  rw [← exists_target_iff]
  constructor
  · rintro h ⟨b,c,htarget⟩
    exact (routed_iff htarget henv).mp (h b c htarget)
  · intro h b c htarget
    exact (routed_iff htarget henv).mpr (h ⟨b,c,htarget⟩)

/-- In every state of the run, every message gets to its target. -/
def RoutesAlways (conns : ℕ → Conn) (es : List Event) : Prop :=
  ∀ ys e zs, es = ys ++ e::zs → ∀ m, ys.foldlM Machine.step (.start conns) = some m → SendsAll m e

/-- Sending is independent of the other clients exactly in the runs in which the handle they have
left behind is connected, or the server can be called instead. -/
theorem routesAlways_iff (conns : ℕ → Conn) (es : List Event) :
    RoutesAlways conns es ↔ Meets Machine.step HandleUp (.start conns) es := by
  exact splits_iff_meets (P := fun _ => True) (fun _ _ _ _ _ => trivial)
    (fun m e _ => sendsAll_iff m e) trivial

/-- Two clients, with the ids 1 and 2. -/
def twoConns (c : ℕ) : Conn := ⟨true, [], [], ⟨192, 168, 4, if c = 0 then 1 else 2⟩⟩

/-- The sketch goes on `n` times, and nothing happens. -/
def waiting (n : ℕ) : List Event := List.replicate n (.go plainEnv [] [])

/-- Client 2 is accepted and the Pi sends a message for it. Client 1 is accepted and goes away,
before the message is looked at. -/
def goneRun : List Event :=
  .go { plainEnv with accept := some 1 } [] [] :: waiting 17 ++
    .go plainEnv (espCmndPckt 9 2 1 0 espSendData 0).bytes [] ::
    .go { plainEnv with accept := some 0 } [] [] :: .link 0 false :: waiting 17

/-- The message for client 2 is waiting, and so is the sketch, for client 1. -/
theorem gone_client_blocks : ¬ RoutesAlways twoConns (goneRun ++ waiting 1) := by
  intro h
  have hrun : (goneRun.foldlM Machine.step (.start twoConns)).map (fun m =>
      (m.pc, m.esp.fromPi.runRdy, m.esp.wifiArr m.esp.fromPi.cmndPckt.espTo,
        (m.esp.conns 1).connected, m.esp.connected m.esp.client, m.esp.serverIP)) =
      some (.rest, true, some 1, true, false, .unset) := rfl
  obtain ⟨m,hm,hstate⟩ := Option.map_eq_some_iff.mp hrun
  simp only [Prod.mk.injEq] at hstate
  obtain ⟨-,-,hslot,hlive,hclient,hunset⟩ := hstate
  obtain ⟨t,ht,-⟩ := h goneRun _ [] rfl m hm plainEnv [] [] rfl (fun _ => rfl) m.esp.fromPi 1
    ⟨hslot,hlive⟩
  have hsome : (m.esp.sendMsg true plainEnv).isSome = true := Option.isSome_iff_exists.mpr ⟨t,ht⟩
  have hends := (sendMsg_isSome_iff true plainEnv m.esp).mp hsome
  rw [hclient] at hends
  exact absurd hends (by simp [plainEnv])

end DistributedPis
