import DistributedPis.Esp.Routing

/-! The client build of the sketch, byte by byte. It calls `relay_to_pi` with a count of its idle
iterations, which takes the connection to the server away from `client`. No slot is ever filled in
this build, so nothing is relayed. -/
namespace DistributedPis
open Library

namespace Machine
open Esp

/-- The sketch goes on, in the client build; it has no loop over the slots. -/
def goClient (env : Env) (before during : List UInt8) (m : Machine) : Option Machine :=
  let s := m.esp
  match m.pc with
  | .top =>
    if 31 < s.available s.client then
      -- the argument of `relay_to_pi` has 8 bits, the array 16 slots
      let slot := s.i % 256
      if slot < 16 then some ⟨{s with client := s.wifiArr slot}, .relay slot⟩ else none
    else some ⟨s, .rest⟩
  | .client _ => some ⟨s, .rest⟩
  | .relay i => some ⟨s, if 0 < s.available s.client / 32 then .copy i 0 else .rest⟩
  | .copy i k => some (if k < 32 then ⟨s.relayByte, .copy i (k+1)⟩ else ⟨s, .relay i⟩)
  | .rest => (s.loopPi false env before during).map fun r => ⟨r.1, .top⟩

def stepClient (m : Machine) : Event → Option Machine
  | .go env before during => m.goClient env before during
  | e => m.step e

/-- No slot is filled, and a relay is left with no connection. -/
structure Bare (m : Machine) : Prop where
  slots : ∀ k, m.esp.wifiArr k = none
  place : m.pc = .top ∨ m.pc = .rest ∨ (∃ i, m.pc = .relay i) ∧ m.esp.client = none

/-- The sketch goes on in an iteration that has found no whole packet. -/
def NoPacket (m : Machine) (e : Event) : Prop :=
  ∀ env before during, e = .go env before during → m.pc = .top →
    m.esp.available m.esp.client ≤ 31

end Machine

/-- A step of the sketch keeps the relay going: an index is in bounds, `client` stays the same
object until the commands of the Pi are looked at, and no whole packet of it is left then. The Pi
is sent the stream of each connection, in order. -/
structure KeepsRelaying (conns : ℕ → Conn) (es : List Event) (m : Machine) (e : Event) : Prop where
  stream : ∀ m', m.stepClient e = some m' → ∃ log part, Relayed conns (es ++ [e]) m' log part
  index : ∀ env before during, e = .go env before during → m.pc = .top →
    31 < m.esp.available m.esp.client → m.esp.i % 256 < 16
  client : ∀ m', m.stepClient e = some m' → m.pc ≠ .rest → m'.esp.client = m.esp.client
  whole : ∀ m', m.stepClient e = some m' → m.pc ≠ .rest → m'.pc = .rest →
    m'.esp.available m'.esp.client ≤ 31

/-- Every step of the run does. -/
def RelaysAlways (conns : ℕ → Conn) (es : List Event) : Prop :=
  ∀ ys e zs, es = ys ++ e::zs → ∀ m, ys.foldlM Machine.stepClient (.start conns) = some m →
    KeepsRelaying conns ys m e

section Steps
variable {conns : ℕ → Conn} {es : List Event} {e : Event} {m m' : Machine} {log : List Sent}
  {part : List UInt8} {env : Env} {before during : List UInt8}

/-- Everything the sketch can do in a step. -/
theorem goClient_cases (hbare : m.Bare) (h : m.goClient env before during = some m') :
    (m.pc = .top ∧ 31 < m.esp.available m.esp.client ∧ m.esp.i % 256 < 16 ∧
      m' = ⟨{m.esp with client := none}, .relay (m.esp.i % 256)⟩) ∨
    (m.pc = .top ∧ m.esp.available m.esp.client ≤ 31 ∧ m' = ⟨m.esp, .rest⟩) ∨
    ((∃ i, m.pc = .relay i) ∧ m.esp.client = none ∧ m' = ⟨m.esp, .rest⟩) ∨
    (m.pc = .rest ∧ ∃ t a, m.esp.loopPi false env before during = some (t,a) ∧ m' = ⟨t, .top⟩) := by
  obtain ⟨s,pc⟩ := m
  obtain ⟨hslots,hplace⟩ := hbare
  dsimp only at hslots hplace
  obtain rfl | rfl | ⟨⟨i,rfl⟩,hnone⟩ := hplace
  · unfold Machine.goClient at h
    dsimp only at h
    rw [hslots] at h
    split_ifs at h with hwaits hslot <;> cases h
    · exact .inl ⟨rfl, hwaits, hslot, rfl⟩
    · exact .inr (.inl ⟨rfl, Nat.not_lt.mp hwaits, rfl⟩)
  · obtain ⟨⟨t,a⟩,ht,rfl⟩ := Option.map_eq_some_iff.mp h
    exact .inr (.inr (.inr ⟨rfl, t, a, ht, rfl⟩))
  · cases h
    refine .inr (.inr (.inl ⟨⟨i,rfl⟩, hnone, ?_⟩))
    simp [hnone, Esp.available]

lemma bare_start (conns : ℕ → Conn) : (Machine.start conns).Bare := ⟨fun _ => rfl, .inl rfl⟩

lemma stepClient_bare (hbare : m.Bare) (h : m.stepClient e = some m') : m'.Bare := by
  cases e with
  | arrive c bs => cases h; exact ⟨hbare.slots, hbare.place⟩
  | link c up => cases h; exact ⟨hbare.slots, hbare.place⟩
  | go env before during =>
    obtain ⟨-,-,-,rfl⟩ | ⟨-,-,rfl⟩ | ⟨-,-,rfl⟩ | ⟨-,t,a,ht,rfl⟩ := goClient_cases hbare h
    · exact ⟨hbare.slots, .inr (.inr ⟨⟨_,rfl⟩, rfl⟩)⟩
    · exact ⟨hbare.slots, .inr (.inl rfl)⟩
    · exact ⟨hbare.slots, .inr (.inl rfl)⟩
    · exact ⟨fun k => (congrFun (Esp.loopPi_reports ht).2 k).trans (hbare.slots k), .inl rfl⟩

lemma Machine.Bare.copied (hbare : m.Bare) : m.pc.copied = 0 := by
  obtain h | h | ⟨⟨i,h⟩,-⟩ := hbare.place <;> rw [h] <;> rfl

/-- Nothing is relayed, so the line and the streams stay as they are. -/
lemma stepClient_relayed (hbare : m.Bare) (hrel : Relayed conns es m log part)
    (h : m.stepClient e = some m') : ∃ log' part', Relayed conns (es ++ [e]) m' log' part' := by
  have hpart : part = [] := hrel.idle hbare.copied
  have hcopied : m'.pc.copied = m.pc.copied :=
    (stepClient_bare hbare h).copied.trans hbare.copied.symm
  cases e with
  | arrive c bs =>
    have hcopy : m.Copying := by
      intro i k hpc
      have hplace := hbare.place
      simp [hpc] at hplace
    have hstep : m.step (.arrive c bs) = some m' := h
    obtain ⟨log',part',hrel',-⟩ := step_relayed hrel hcopy hstep
    exact ⟨log', part', hrel'⟩
  | link c up =>
    cases h
    refine ⟨log, part, hrel.quiet (fun _ => rfl) rfl rfl (.inr rfl) fun d => ?_⟩
    rw [setConn_incoming]
    split
    · rename_i hd
      rw [hd]
    · rfl
  | go env before during =>
    obtain ⟨-,-,-,rfl⟩ | ⟨-,-,rfl⟩ | ⟨-,-,rfl⟩ | ⟨-,t,a,ht,rfl⟩ := goClient_cases hbare h
    · exact ⟨log, part, hrel.quiet (fun _ => rfl) rfl hcopied (.inl hpart) fun _ => rfl⟩
    · exact ⟨log, part, hrel.quiet (fun _ => rfl) rfl hcopied (.inl hpart) fun _ => rfl⟩
    · exact ⟨log, part, hrel.quiet (fun _ => rfl) rfl hcopied (.inl hpart) fun _ => rfl⟩
    · obtain ⟨⟨⟨ps,hown,hline⟩,hconns⟩,-⟩ := Esp.loopPi_reports ht
      exact ⟨_, _, hrel.report hpart (fun _ => rfl) hown rfl hline hconns⟩

/-- What holds before every step of a run. -/
lemma runClient_relayed (h : es.foldlM Machine.stepClient (.start conns) = some m) :
    m.Bare ∧ ∃ log part, Relayed conns es m log part := by
  refine foldlM_history (P := fun es m => m.Bare ∧ ∃ log part, Relayed conns es m log part)
    ?_ ⟨bare_start conns, [], [], relayed_start conns⟩ h
  rintro es e m m' ⟨hbare,log,part,hrel⟩ hstep
  exact ⟨stepClient_bare hbare hstep, stepClient_relayed hbare hrel hstep⟩

/-- The sketch goes on for a while, and nothing arrives. -/
def Machine.GoesClient (env : Env) (before during : List UInt8) : Machine → Machine → Prop :=
  Relation.ReflTransGen fun m m' => m.goClient env before during = some m'

/-- While nothing arrives, the sketch goes through exactly the iterations of `loop()`. -/
theorem loop_goesClient {s t : Esp} {a : Esp.Act} (hslots : ∀ k, s.wifiArr k = none)
    (h : s.loop false env before during = some (t,a)) :
    Machine.GoesClient env before during ⟨s, .top⟩ ⟨t, .top⟩ := by
  rw [Esp.loop_eq] at h
  obtain ⟨u,hu,h⟩ := Option.bind_eq_some_iff.mp h
  have hlast : Machine.goClient env before during ⟨u, .rest⟩ = some ⟨t, .top⟩ := by
    simp only [Machine.goClient, h, Option.map_some]
  refine .tail ?_ hlast
  simp only [Esp.relays, Bool.false_eq_true, if_false] at hu
  split_ifs at hu with hwaits
  · unfold Esp.relayToPi at hu
    split_ifs at hu with hslot
    dsimp only at hu
    rw [hslots] at hu
    cases hu
    refine .head (b := ⟨{s with client := none}, .relay (s.i % 256)⟩) ?_ (.single ?_)
    · simp only [Machine.goClient, hwaits, if_true, Nat.not_le.mp hslot, hslots]
    · simp [Machine.goClient, Esp.available]
  · cases hu
    refine .single ?_
    simp only [Machine.goClient, hwaits, if_false]

/-- A relay always loses the connection. -/
lemma noPacket_of_keeps (hbare : m.Bare) (h : KeepsRelaying conns es m e) : m.NoPacket e := by
  rintro env before during rfl hpc
  by_contra hwaits
  rw [Nat.not_le] at hwaits
  have hslot := h.index env before during rfl hpc hwaits
  have hstep : m.stepClient (.go env before during) =
      some ⟨{m.esp with client := m.esp.wifiArr (m.esp.i % 256)}, .relay (m.esp.i % 256)⟩ := by
    simp only [Machine.stepClient, Machine.goClient, hpc, hwaits, hslot, if_true]
  have hclient := h.client _ hstep (by rw [hpc]; decide)
  dsimp only at hclient
  rw [← hclient, hbare.slots] at hwaits
  exact absurd hwaits (by simp [Esp.available])

lemma keeps_of_noPacket (hbare : m.Bare) (hrel : Relayed conns es m log part)
    (h : m.NoPacket e) : KeepsRelaying conns es m e where
  stream _ hstep := stepClient_relayed hbare hrel hstep
  index env before during he hpc hwaits :=
    absurd hwaits (Nat.not_lt.mpr (h env before during he hpc))
  client m' hstep hrest := by
    cases e with
    | arrive c bs => cases hstep; rfl
    | link c up => cases hstep; rfl
    | go env before during =>
      obtain ⟨hpc,hwaits,-,-⟩ | ⟨-,-,rfl⟩ | ⟨-,-,rfl⟩ | ⟨hpc,-⟩ := goClient_cases hbare hstep
      · exact absurd hwaits (Nat.not_lt.mpr (h env before during rfl hpc))
      · rfl
      · rfl
      · exact absurd hpc hrest
  whole m' hstep hrest hpc' := by
    cases e with
    | arrive c bs => cases hstep; exact absurd hpc' hrest
    | link c up => cases hstep; exact absurd hpc' hrest
    | go env before during =>
      obtain ⟨-,-,-,rfl⟩ | ⟨-,hwaits,rfl⟩ | ⟨-,hnone,rfl⟩ | ⟨hpc,-⟩ := goClient_cases hbare hstep
      · cases hpc'
      · exact hwaits
      · dsimp only
        rw [hnone]
        exact Nat.zero_le _
      · exact absurd hpc hrest

end Steps

/-- The client keeps relaying exactly in the runs in which it never finds a packet to relay. -/
theorem relaysAlways_iff (conns : ℕ → Conn) (es : List Event) :
    RelaysAlways conns es ↔ Meets Machine.stepClient Machine.NoPacket (.start conns) es := by
  rw [meets_iff_splits]
  refine forall₄_congr fun ys e zs _ => forall₂_congr fun m hm => ?_
  obtain ⟨hbare,log,part,hrel⟩ := runClient_relayed hm
  exact ⟨noPacket_of_keeps hbare, keeps_of_noPacket hbare hrel⟩

/-- The Pi asks for a connection to the server, and gets connection 0. -/
def connectRun : List Event :=
  [.go plainEnv [] [], .go plainEnv (espCmndPckt 9 selfId selfId 0 espWifiConnect 0).bytes [],
    .go plainEnv [] [],
    .go { plainEnv with wifiUp := true, gatewayIP := ⟨192,168,4,1⟩, connect := some 0 } [] []]

/-- A packet arrives from the server. -/
def serverPacket : Event := .arrive 0 (List.replicate 32 7)

def openConns (_ : ℕ) : Conn := ⟨true, [], [], ⟨192,168,4,1⟩⟩

/-- The packet is looked at after no idle iteration, or after 16 of them. The connection is lost, or
the index is out of bounds. -/
theorem client_stops_relaying :
    ¬ RelaysAlways openConns (connectRun ++ [serverPacket] ++ waiting 1) ∧
    ¬ RelaysAlways openConns (connectRun ++ waiting 32 ++ [serverPacket] ++ waiting 1) := by
  have hfails : ∀ es : List Event, (es.foldlM Machine.stepClient (.start openConns)).map
      (fun m => (m.pc, m.esp.available m.esp.client)) = some (.top, 32) →
      ¬ RelaysAlways openConns (es ++ waiting 1) := by
    intro es hrun h
    obtain ⟨m,hm,hstate⟩ := Option.map_eq_some_iff.mp hrun
    simp only [Prod.mk.injEq] at hstate
    have hkeeps := h es (.go plainEnv [] []) [] rfl m hm
    have hfew := noPacket_of_keeps (runClient_relayed hm).1 hkeeps plainEnv [] [] rfl hstate.1
    omega
  exact ⟨hfails _ rfl, hfails _ rfl⟩

end DistributedPis
