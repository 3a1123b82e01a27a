import DistributedPis.Esp.Collect
import DistributedPis.Library.Run

/-! The server build of the sketch, byte by byte. Bytes from the clients arrive, and connections
come and go, between any two steps of `loop()`; what the Pi is sent are still whole packets. -/
namespace DistributedPis
open Library
namespace Esp

/-- `mySerial.write(client.read())`; a read without data gives -1. -/
def relayByte (s : Esp) : Esp :=
  match s.client with
  | none => s.writePi [0xFF]
  | some c =>
    match (s.conns c).incoming with
    | [] => s.writePi [0xFF]
    | b::bs =>
      let conns := Function.update s.conns c {s.conns c with incoming := bs}
      {s with conns := conns}.writePi [b]

/-- The part of an iteration behind the relays. -/
def loopPi (server : Bool) (env : Env) (before during : List UInt8) (s : Esp) :
    Option (Esp × Act) := do
  let s := {s with mySerial := s.mySerial ++ before}
  if s.fromPi.runRdy then
    let t ← s.runCmnd server env during
    some (t, .ran s.fromPi)
  else if 31 < s.mySerial.length then
    let unit := s.mySerial.take 32
    let t ← {s with mySerial := s.mySerial.drop 32 ++ during}.parsePacket env.malloc
      (packetOf unit)
    some (t, .parsed unit)
  else some ({s with mySerial := s.mySerial ++ during, i := s.i + 1}, .idle)

theorem loop_eq (server : Bool) (env : Env) (before during : List UInt8) (s : Esp) :
    s.loop server env before during =
      (s.relays server env).bind (loopPi server env before during) := rfl

end Esp

/-- Where the sketch is in an iteration. -/
inductive Place
  | top
  /-- It looks at slot `i`, or is done with all of them. -/
  | client (i : ℕ)
  /-- The `while` test of `relay_to_pi`. -/
  | relay (i : ℕ)
  /-- Byte `k` of a packet comes next. -/
  | copy (i k : ℕ)
  | rest
  deriving DecidableEq

/-- How much of a packet has been relayed. -/
def Place.copied : Place → ℕ
  | .copy _ k => k
  | _ => 0

structure Machine where
  esp : Esp
  pc : Place

inductive Event
  | arrive (c : ℕ) (bs : List UInt8)
  | link (c : ℕ) (up : Bool)
  /-- The sketch goes on. -/
  | go (env : Env) (before during : List UInt8)

namespace Machine
open Esp

def start (conns : ℕ → Conn) : Machine := ⟨setup conns, .top⟩

def setConn (m : Machine) (c : ℕ) (conn : Conn) : Machine :=
  ⟨{m.esp with conns := Function.update m.esp.conns c conn}, m.pc⟩

def go (env : Env) (before during : List UInt8) (m : Machine) : Option Machine :=
  let s := m.esp
  match m.pc with
  | .top => some ⟨s.acceptClient env, .client 0⟩
  | .client i =>
    if i < 16 then
      if s.connected (s.wifiArr i) ∧ 31 < s.available (s.wifiArr i) then
        some ⟨{s with client := s.wifiArr i}, .relay i⟩
      else some ⟨s, .client (i+1)⟩
    else some ⟨s, .rest⟩
  | .relay i => some ⟨s, if 0 < s.available s.client / 32 then .copy i 0 else .client (i+1)⟩
  | .copy i k => some (if k < 32 then ⟨s.relayByte, .copy i (k+1)⟩ else ⟨s, .relay i⟩)
  | .rest => (s.loopPi true env before during).map fun r => ⟨r.1, .top⟩

def step (m : Machine) : Event → Option Machine
  | .arrive c bs =>
    some (m.setConn c {m.esp.conns c with incoming := (m.esp.conns c).incoming ++ bs})
  | .link c up => some (m.setConn c {m.esp.conns c with connected := up})
  | .go env before during => m.go env before during

end Machine

/-- The bytes that reach the ESP on connection `c`. -/
def Event.bytes (c : ℕ) : Event → List UInt8
  | .arrive c' bs => if c' = c then bs else []
  | _ => []

/-- The byte stream of connection `c`. -/
def arrived (conns : ℕ → Conn) (es : List Event) (c : ℕ) : List UInt8 :=
  (conns c).incoming ++ es.flatMap (Event.bytes c)

/-- A packet on the line to the Pi, with the connection it was relayed from, if it was. -/
abbrev Sent := Option ℕ × Packet

/-- The packets from connection `c`. -/
def relayedFrom (log : List Sent) (c : ℕ) : List Packet :=
  (log.filter fun e => e.1 = some c).map Prod.snd

/-- The packets of `write_msg_pi` and `get_connected_list`. -/
def IsOwn (p : Packet) : Prop := (∃ d, p = Esp.msgPi d) ∨ p ∈ Esp.connectedListPckts

/-- What the Pi has been sent are the packets of `log`, and `part` of another one while it is
being copied; what was relayed from a connection is the beginning of its stream. -/
structure Relayed (conns : ℕ → Conn) (es : List Event) (m : Machine) (log : List Sent)
    (part : List UInt8) : Prop where
  line : m.esp.toPi = wire (log.map Prod.snd) ++ part
  begun : part.length = m.pc.copied
  own : ∀ e ∈ log, e.1 = none → IsOwn e.2
  streams : ∀ c, arrived conns es c = wire (relayedFrom log c) ++
    (if m.esp.client = some c then part else []) ++ (m.esp.conns c).incoming

/-- A packet that is being copied comes from the current client, where the rest of it waits. -/
def Machine.Copying (m : Machine) : Prop := ∀ i k, m.pc = .copy i k → k ≤ 32 ∧
  ∃ c, m.esp.client = some c ∧ 32 ≤ k + (m.esp.conns c).incoming.length

section Steps
variable {conns : ℕ → Conn} {es : List Event} {e : Event} {m m' : Machine} {log : List Sent}
  {part : List UInt8} {env : Env} {before during : List UInt8}

lemma arrived_concat (conns : ℕ → Conn) (es : List Event) (e : Event) (c : ℕ) :
    arrived conns (es ++ [e]) c = arrived conns es c ++ e.bytes c := by
  simp [arrived, List.flatMap_append]

/-- A step that neither reads from a connection nor writes to the Pi. -/
lemma Relayed.quiet (h : Relayed conns es m log part) (hbytes : ∀ c, e.bytes c = [])
    (hline : m'.esp.toPi = m.esp.toPi) (hcopied : m'.pc.copied = m.pc.copied)
    (hclient : part = [] ∨ m'.esp.client = m.esp.client)
    (hconns : ∀ c, (m'.esp.conns c).incoming = (m.esp.conns c).incoming) :
    Relayed conns (es ++ [e]) m' log part where
  line := by rw [hline, h.line]
  begun := by rw [hcopied, h.begun]
  own := h.own
  streams c := by
    rw [arrived_concat, hbytes, List.append_nil, h.streams c, hconns]
    rcases hclient with rfl | hclient
    · simp
    · rw [hclient]

/-- Packets that the sketch writes on its own account. -/
lemma Relayed.report (h : Relayed conns es m log part) (hidle : part = []) {ps : List Packet}
    (hbytes : ∀ c, e.bytes c = []) (hown : ∀ p ∈ ps, IsOwn p) (hcopied : m'.pc.copied = 0)
    (hline : m'.esp.toPi = m.esp.toPi ++ wire ps)
    (hconns : ∀ c, (m'.esp.conns c).incoming = (m.esp.conns c).incoming) :
    Relayed conns (es ++ [e]) m' (log ++ ps.map fun p => (none, p)) [] where
  line := by
    rw [hline, h.line, hidle]
    simp [wire, Function.comp_def]
  begun := hcopied.symm
  own := by
    intro x hx hnone
    rcases List.mem_append.mp hx with hx | hx
    · exact h.own x hx hnone
    · obtain ⟨p,hp,rfl⟩ := List.mem_map.mp hx
      exact hown p hp
  streams c := by
    have hfrom : relayedFrom (log ++ ps.map fun p => (none, p)) c = relayedFrom log c := by
      simp [relayedFrom, List.filter_map, Function.comp_def]
    rw [arrived_concat, hbytes, List.append_nil, h.streams c, hconns, hfrom, hidle]
    simp

end Steps

namespace Esp
variable {server : Bool} {env : Env} {s t : Esp} {before during : List UInt8} {a : Act}

/-- From `s` to `t` only whole packets of the sketch itself are written to the Pi, and nothing is
read from a connection. -/
def Reports (s t : Esp) : Prop :=
  (∃ ps, (∀ p ∈ ps, IsOwn p) ∧ t.toPi = s.toPi ++ wire ps) ∧
    ∀ c, (t.conns c).incoming = (s.conns c).incoming

/-- And no slot is filled. -/
def ReportsOnly (s t : Esp) : Prop := s.Reports t ∧ t.wifiArr = s.wifiArr

lemma reports_silent (hline : t.toPi = s.toPi) (hconns : t.conns = s.conns)
    (hslots : t.wifiArr = s.wifiArr) : s.ReportsOnly t :=
  ⟨⟨⟨[], by simp, by simp [hline]⟩, by simp [hconns]⟩, hslots⟩

lemma reports_msg (d : UInt8) (hline : t.toPi = s.toPi ++ (msgPi d).bytes)
    (hconns : t.conns = s.conns) (hslots : t.wifiArr = s.wifiArr) : s.ReportsOnly t := by
  refine ⟨⟨⟨[msgPi d], ?_, by simp [hline]⟩, by simp [hconns]⟩, hslots⟩
  intro p hp
  exact Or.inl ⟨d, List.mem_singleton.mp hp⟩

/-- Writing to a client leaves everything but that connection's output alone. -/
lemma writeClient_frame (s : Esp) (o : Option ℕ) (bs : List UInt8) :
    ∃ conns, s.writeClient o bs = {s with conns := conns} ∧
      ∀ c, (conns c).incoming = (s.conns c).incoming := by
  unfold writeClient
  cases o with
  | none => exact ⟨s.conns, rfl, fun _ => rfl⟩
  | some d =>
    dsimp only
    split
    · refine ⟨_, rfl, fun c => ?_⟩
      by_cases hc : c = d
      · subst hc
        simp
      · simp [Function.update_of_ne hc]
    · exact ⟨s.conns, rfl, fun _ => rfl⟩

lemma writeClient_toPi (s : Esp) (o : Option ℕ) (bs : List UInt8) :
    (s.writeClient o bs).toPi = s.toPi := by
  obtain ⟨conns,heq,-⟩ := s.writeClient_frame o bs
  rw [heq]

lemma sendMsg_reports (h : s.sendMsg server env = some t) : s.ReportsOnly t := by
  rw [sendMsg_eq] at h
  obtain ⟨client,-,rfl⟩ := Option.map_eq_some_iff.mp h
  dsimp only
  obtain ⟨conns,heq,hincoming⟩ := writeClient_frame _ _ _
  rw [heq]
  exact ⟨⟨⟨[], by simp, by simp⟩, hincoming⟩, rfl⟩

lemma clientWifiCnct_reports : s.ReportsOnly (s.clientWifiCnct env) := by
  unfold clientWifiCnct
  split
  · exact reports_msg espFail rfl rfl rfl
  · dsimp only
    split
    · exact reports_msg espFail rfl rfl rfl
    · split
      · exact reports_msg espFail rfl rfl rfl
      · exact reports_msg _ rfl rfl rfl

lemma getServerIp_reports : s.ReportsOnly s.getServerIp := by
  unfold getServerIp
  split
  · exact reports_msg espFail rfl rfl rfl
  · exact reports_msg _ rfl rfl rfl

lemma getConnectedList_reports : s.ReportsOnly s.getConnectedList :=
  ⟨⟨⟨connectedListPckts, fun _ hp => Or.inr hp, rfl⟩, fun _ => rfl⟩, rfl⟩

lemma execute_reports (h : s.execute server env = some t) : s.ReportsOnly t := by
  unfold execute at h
  split_ifs at h
  · cases h; exact reports_msg _ rfl rfl rfl
  · exact sendMsg_reports h
  · cases h; exact clientWifiCnct_reports
  · cases h; exact reports_silent rfl rfl rfl
  · cases h; exact getConnectedList_reports
  · cases h; exact getServerIp_reports
  · exact sendMsg_reports h
  · exact sendMsg_reports h
  · cases h; exact reports_silent rfl rfl rfl

lemma loopPi_reports (h : s.loopPi server env before during = some (t,a)) : s.ReportsOnly t := by
  unfold loopPi at h
  dsimp only at h
  split_ifs at h
  · obtain ⟨u,hu,h⟩ := Option.bind_eq_some_iff.mp h
    cases h
    obtain ⟨v,hv,hu⟩ := Option.bind_eq_some_iff.mp hu
    cases hu
    have hreports := execute_reports hv
    exact hreports
  · obtain ⟨u,hu,h⟩ := Option.bind_eq_some_iff.mp h
    cases h
    obtain ⟨b,bs,-,rfl⟩ := parsePacket_frame hu
    exact reports_silent rfl rfl rfl
  · cases h
    exact reports_silent rfl rfl rfl

end Esp

section Runs
variable {conns : ℕ → Conn} {es : List Event} {e : Event} {m m' : Machine} {log : List Sent}
  {part : List UInt8} {env : Env} {before during : List UInt8}

lemma Relayed.idle (h : Relayed conns es m log part) (hpc : m.pc.copied = 0) : part = [] :=
  List.length_eq_zero_iff.mp (h.begun.trans hpc)

lemma relayByte_eq {s : Esp} {c : ℕ} {b : UInt8} {bs : List UInt8} (hc : s.client = some c)
    (hb : (s.conns c).incoming = b::bs) : s.relayByte = {s with
      conns := Function.update s.conns c {s.conns c with incoming := bs}
      toPi := s.toPi ++ [b]} := by
  unfold Esp.relayByte
  rw [hc]
  dsimp only
  rw [hb]
  rfl

/-- One byte of a packet. -/
lemma Relayed.copy (h : Relayed conns es m log part) (hbytes : ∀ c, e.bytes c = []) {i k : ℕ}
    (hpc : m.pc = .copy i k) (hcopy : m.Copying) (hk : k < 32) :
    ∃ b, Relayed conns (es ++ [e]) ⟨m.esp.relayByte, .copy i (k+1)⟩ log (part ++ [b]) ∧
      Machine.Copying ⟨m.esp.relayByte, .copy i (k+1)⟩ := by
  obtain ⟨-,c,hc,hlen⟩ := hcopy i k hpc
  obtain ⟨b,bs,hb⟩ : ∃ b bs, (m.esp.conns c).incoming = b::bs :=
    List.exists_cons_of_length_pos (by omega)
  rw [hb, List.length_cons] at hlen
  refine ⟨b, ?_, ?_⟩
  · rw [relayByte_eq hc hb]
    constructor
    · simp [h.line]
    · rw [List.length_append, h.begun, hpc]
      rfl
    · exact h.own
    · intro d
      have hstream := h.streams d
      rw [arrived_concat, hbytes, List.append_nil, hstream, hc]
      dsimp only
      by_cases hd : c = d
      · subst hd
        simp [hb]
      · have hne : some c ≠ some d := fun he => hd (Option.some.inj he)
        rw [if_neg hne, if_neg hne, Function.update_of_ne (Ne.symm hd)]
  · rintro i' k' hpc'
    obtain ⟨rfl,rfl⟩ := Place.copy.inj hpc'
    rw [relayByte_eq hc hb]
    refine ⟨hk, c, hc, ?_⟩
    simp only [Function.update_self]
    omega

/-- The packet is complete. -/
lemma Relayed.complete (h : Relayed conns es m log part) (hbytes : ∀ c, e.bytes c = []) {i : ℕ}
    (hpc : m.pc = .copy i 32) (hcopy : m.Copying) :
    Relayed conns (es ++ [e]) ⟨m.esp, .relay i⟩
      (log ++ [(m.esp.client, Packet.ofBytes part)]) [] := by
  obtain ⟨-,c,hc,-⟩ := hcopy i 32 hpc
  have hlen : part.length = 32 := by rw [h.begun, hpc]; rfl
  have hpart : (Packet.ofBytes part).bytes = part := by
    apply List.ext_getElem
    · simp [hlen]
    · intro k hk hk'
      simp [Packet.bytes, Packet.ofBytes, List.getD_eq_getElem?_getD, hk', -List.ofFn_succ]
  rw [hc]
  constructor
  · rw [h.line]
    simp [wire, hpart]
  · rfl
  · intro x hx hnone
    rcases List.mem_append.mp hx with hx | hx
    · exact h.own x hx hnone
    · rw [List.mem_singleton.mp hx] at hnone
      cases hnone
  · intro d
    rw [arrived_concat, hbytes, List.append_nil, h.streams d, hc]
    by_cases hd : c = d
    · subst hd
      simp [relayedFrom, List.filter_append, wire, hpart]
    · have hne : some c ≠ some d := fun he => hd (Option.some.inj he)
      simp [relayedFrom, List.filter_append, hd]

/-- A packet is only begun when it is there as a whole. -/
lemma copying_relay (s : Esp) (i : ℕ) : Machine.Copying
    ⟨s, if 0 < s.available s.client / 32 then .copy i 0 else .client (i+1)⟩ := by
  rintro i' k hpc
  dsimp only at hpc
  split_ifs at hpc with havail
  obtain ⟨rfl,rfl⟩ := Place.copy.inj hpc
  refine ⟨Nat.zero_le _, ?_⟩
  cases hc : s.client with
  | none =>
    rw [hc] at havail
    exact absurd havail (by simp [Esp.available])
  | some c =>
    rw [hc] at havail
    simp only [Esp.available, Option.map_some, Option.getD_some] at havail
    exact ⟨c, rfl, by dsimp only; omega⟩

/-- One step of the sketch. -/
lemma go_relayed (h : Relayed conns es m log part) (hcopy : m.Copying)
    (hgo : m.go env before during = some m') :
    ∃ log' part', Relayed conns (es ++ [.go env before during]) m' log' part' ∧ m'.Copying := by
  have hbytes : ∀ c, (Event.go env before during).bytes c = [] := fun _ => rfl
  obtain ⟨s,pc⟩ := m
  cases pc with
  | top =>
    cases hgo
    refine ⟨log, part, h.quiet hbytes ?_ rfl (.inl (h.idle rfl)) ?_, nofun⟩
    · unfold Esp.acceptClient
      split <;> rfl
    · intro c
      unfold Esp.acceptClient
      split <;> rfl
  | client i =>
    unfold Machine.go at hgo
    dsimp only at hgo
    split_ifs at hgo <;> cases hgo <;>
      exact ⟨log, part, h.quiet hbytes rfl rfl (.inl (h.idle rfl)) fun _ => rfl, nofun⟩
  | relay i =>
    cases hgo
    refine ⟨log, part, h.quiet hbytes rfl ?_ (.inl (h.idle rfl)) fun _ => rfl, copying_relay s i⟩
    dsimp only
    split <;> rfl
  | copy i k =>
    cases hgo
    by_cases hk : k < 32
    · rw [if_pos hk]
      obtain ⟨b,hb,hcopy⟩ := h.copy hbytes rfl hcopy hk
      exact ⟨_, _, hb, hcopy⟩
    · obtain rfl : k = 32 := le_antisymm (hcopy i k rfl).1 (Nat.not_lt.mp hk)
      rw [if_neg hk]
      exact ⟨_, _, h.complete hbytes rfl hcopy, nofun⟩
  | rest =>
    obtain ⟨⟨t,a⟩,ht,rfl⟩ := Option.map_eq_some_iff.mp hgo
    obtain ⟨⟨⟨ps,hown,hline⟩,hconns⟩,-⟩ := Esp.loopPi_reports ht
    exact ⟨_, _, h.report (h.idle rfl) hbytes hown rfl hline hconns, nofun⟩

lemma setConn_incoming (m : Machine) (c : ℕ) (conn : Conn) (d : ℕ) :
    ((m.setConn c conn).esp.conns d).incoming =
      if d = c then conn.incoming else (m.esp.conns d).incoming := by
  change (Function.update m.esp.conns c conn d).incoming = _
  rw [Function.update_apply]
  split <;> rfl

/-- Packets that are being copied stay there. -/
lemma copying_setConn (hcopy : m.Copying) {c : ℕ} {conn : Conn}
    (hlen : (m.esp.conns c).incoming.length ≤ conn.incoming.length) :
    (m.setConn c conn).Copying := by
  intro i k hpc
  obtain ⟨hk,d,hd,hcopied⟩ := hcopy i k hpc
  refine ⟨hk, d, hd, ?_⟩
  rw [setConn_incoming]
  split
  · rename_i hdc
    subst hdc
    omega
  · exact hcopied

lemma step_relayed (h : Relayed conns es m log part) (hcopy : m.Copying)
    (hstep : m.step e = some m') :
    ∃ log' part', Relayed conns (es ++ [e]) m' log' part' ∧ m'.Copying := by
  cases e with
  | arrive c bs =>
    cases hstep
    refine ⟨log, part, ⟨h.line, h.begun, h.own, fun d => ?_⟩, copying_setConn hcopy (by simp)⟩
    rw [arrived_concat, h.streams d, setConn_incoming]
    change _ = _ ++ (if m.esp.client = some d then part else []) ++ _
    by_cases hd : c = d
    · subst hd
      simp [Event.bytes]
    · simp [Event.bytes, hd, Ne.symm hd]
  | link c up =>
    cases hstep
    refine ⟨log, part, h.quiet (fun _ => rfl) rfl rfl (.inr rfl) fun d => ?_,
      copying_setConn hcopy le_rfl⟩
    rw [setConn_incoming]
    split
    · rename_i hd
      rw [hd]
    · rfl
  | go env before during => exact go_relayed h hcopy hstep

lemma relayed_start (conns : ℕ → Conn) : Relayed conns [] (.start conns) [] [] :=
  ⟨rfl, rfl, nofun, fun c => by simp [arrived, relayedFrom]; rfl⟩

/-- Whatever arrives when, the Pi is sent whole packets; those from one connection are its stream,
cut into packets, up to the bytes that still wait. -/
theorem relayed_whole (h : es.foldlM Machine.step (.start conns) = some m) :
    ∃ log part, Relayed conns es m log part := by
  have hrun : ∃ log part, Relayed conns es m log part ∧ m.Copying := by
    refine foldlM_history (P := fun es m => ∃ log part, Relayed conns es m log part ∧ m.Copying)
      ?_ ⟨[], [], relayed_start conns, nofun⟩ h
    rintro es e m m' ⟨log,part,hrel,hcopy⟩ hstep
    exact step_relayed hrel hcopy hstep
  obtain ⟨log,part,hrel,-⟩ := hrun
  exact ⟨log, part, hrel⟩

/-- A client sends 40 bytes in two pieces, and a packet of them is relayed. -/
def twoPieces : List Event :=
  [.go { plainEnv with accept := some 0 } [] [], .arrive 0 (List.replicate 25 7),
    .arrive 0 (List.replicate 15 8)] ++ List.replicate 36 (.go plainEnv [] [])

theorem relayed_whole_pieces : ∃ m log part,
    twoPieces.foldlM Machine.step (.start fun _ => ⟨true, [], [], .unset⟩) = some m ∧ log ≠ [] ∧
      Relayed (fun _ => ⟨true, [], [], .unset⟩) twoPieces m log part := by
  have hrun : (twoPieces.foldlM Machine.step (.start fun _ => ⟨true, [], [], .unset⟩)).map
      (fun m => (m.esp.toPi.length, m.pc.copied)) = some (32,0) := rfl
  obtain ⟨m,hm,hstate⟩ := Option.map_eq_some_iff.mp hrun
  obtain ⟨hlen,hcopied⟩ := Prod.mk.inj hstate
  obtain ⟨log,part,hrel⟩ := relayed_whole hm
  refine ⟨m, log, part, hm, ?_, hrel⟩
  rintro rfl
  have hpart := hrel.begun
  have hline := congrArg List.length hrel.line
  simp only [List.map_nil, wire_nil, List.nil_append] at hline
  omega

end Runs

/-- The sketch goes on for a while, and nothing arrives. -/
def Machine.Goes (env : Env) (before during : List UInt8) : Machine → Machine → Prop :=
  Relation.ReflTransGen fun m m' => m.go env before during = some m'

namespace Esp
variable {env : Env} {before during : List UInt8} {s t : Esp} {c i k n : ℕ}

/-- The first `n` bytes that wait on connection `c` have gone to the Pi. -/
def taken (s : Esp) (c n : ℕ) : Esp := {s with
  conns := Function.update s.conns c
    {s.conns c with incoming := (s.conns c).incoming.drop n}
  toPi := s.toPi ++ (s.conns c).incoming.take n}

lemma taken_zero (s : Esp) (c : ℕ) : s.taken c 0 = s := by
  simp [taken]

lemma taken_taken (s : Esp) (c m n : ℕ) : (s.taken c m).taken c n = s.taken c (m+n) := by
  simp [taken, List.take_add]

lemma taken_incoming (s : Esp) (c n : ℕ) :
    ((s.taken c n).conns c).incoming = (s.conns c).incoming.drop n := by
  simp [taken]

lemma relayByte_taken (hc : s.client = some c) (h : 0 < (s.conns c).incoming.length) :
    s.relayByte = s.taken c 1 := by
  obtain ⟨b,bs,hb⟩ := List.exists_cons_of_length_pos h
  rw [relayByte_eq hc hb, taken, hb]
  rfl

lemma copy_goes (hc : s.client = some c) (hn : n ≤ 32) (hlen : n ≤ (s.conns c).incoming.length) :
    Machine.Goes env before during ⟨s, .copy i (32-n)⟩ ⟨s.taken c n, .copy i 32⟩ := by
  induction n generalizing s with
  | zero => rw [taken_zero]; exact .refl
  | succ n ih =>
    have hone := taken_incoming s c 1
    have hrest := ih (s := s.taken c 1) hc (by omega) (by rw [hone, List.length_drop]; omega)
    rw [taken_taken, Nat.add_comm 1 n] at hrest
    refine .head ?_ hrest
    have hk : 32-(n+1) < 32 := by omega
    have hnext : 32-(n+1)+1 = 32-n := by omega
    simp only [Machine.go, hk, if_true, hnext, relayByte_taken hc (by omega)]

lemma relay_goes (hc : s.client = some c) (hn : (s.conns c).incoming.length / 32 = n) :
    Machine.Goes env before during ⟨s, .relay i⟩ ⟨s.taken c (32*n), .client (i+1)⟩ := by
  induction n generalizing s with
  | zero =>
    refine .single ?_
    simp [Machine.go, available, hc, hn, taken_zero]
  | succ n ih =>
    have hone := taken_incoming s c 32
    have hpckt : Machine.Goes env before during ⟨s, .copy i (32-32)⟩ ⟨s.taken c 32, .copy i 32⟩ :=
      copy_goes hc le_rfl (by omega)
    have hrest := ih (s := s.taken c 32) hc (by rw [hone, List.length_drop]; omega)
    rw [taken_taken, show 32+32*n = 32*(n+1) by omega] at hrest
    refine .head ?_ (hpckt.trans (.head ?_ hrest))
    · simp [Machine.go, available, hc, hn]
    · simp [Machine.go]

lemma relayToPi_eq (hi : i < 16) (hc : s.wifiArr i = some c) : s.relayToPi i =
    some ({s with client := s.wifiArr i}.taken c (32*((s.conns c).incoming.length/32))) := by
  rw [relayToPi, if_neg (by omega)]
  dsimp only
  rw [hc]
  rfl

lemma slot_goes (hi : i < 16) (h : s.relaySlot i = some t) :
    Machine.Goes env before during ⟨s, .client i⟩ ⟨t, .client (i+1)⟩ := by
  unfold relaySlot at h
  by_cases hready : s.Waits i
  · rw [if_pos hready] at h
    obtain ⟨c,hc⟩ : ∃ c, s.wifiArr i = some c := by
      refine Option.ne_none_iff_exists'.mp fun hnone => ?_
      have hlen := hready.2
      rw [hnone] at hlen
      exact absurd hlen (by simp [available])
    rw [relayToPi_eq hi hc] at h
    cases h
    refine .head ?_ (relay_goes (s := {s with client := s.wifiArr i}) hc rfl)
    simp only [Machine.go, hi, if_true, Waits] at hready ⊢
    rw [if_pos hready]
  · rw [if_neg hready] at h
    cases h
    refine .single ?_
    simp only [Machine.go, hi, if_true, Waits] at hready ⊢
    rw [if_neg hready]

lemma slots_goes (hi : i+n = 16) (h : (List.range' i n).foldlM relaySlot s = some t) :
    Machine.Goes env before during ⟨s, .client i⟩ ⟨t, .rest⟩ := by
  induction n generalizing s i with
  | zero =>
    cases h
    refine .single ?_
    simp [Machine.go, show ¬i < 16 by omega]
  | succ n ih =>
    rw [List.range'_succ, List.foldlM_cons] at h
    obtain ⟨u,hu,h⟩ := Option.bind_eq_some_iff.mp h
    exact (slot_goes (by omega) hu).trans (ih (by omega) h)

/-- While nothing arrives, the sketch goes through exactly the iterations of `loop()`. -/
theorem loop_goes {a : Act} (h : s.loop true env before during = some (t,a)) :
    Machine.Goes env before during ⟨s, .top⟩ ⟨t, .top⟩ := by
  rw [loop_eq] at h
  obtain ⟨u,hu,h⟩ := Option.bind_eq_some_iff.mp h
  have hslots : (List.range' 0 16).foldlM relaySlot (s.acceptClient env) = some u := hu
  refine .head (b := ⟨s.acceptClient env, .client 0⟩) rfl ?_
  refine (slots_goes rfl hslots).trans (.single ?_)
  simp only [Machine.go, h, Option.map_some]

/-- From `s` to `t` bytes are only taken from connections. -/
structure Takes (s t : Esp) : Prop where
  slots : t.wifiArr = s.wifiArr
  up : ∀ o, t.connected o = s.connected o
  left : ∀ o, t.available o ≤ s.available o

lemma Takes.trans {u : Esp} (h : Takes s t) (h' : Takes t u) : Takes s u :=
  ⟨h'.slots.trans h.slots, fun o => (h'.up o).trans (h.up o), fun o => (h'.left o).trans (h.left o)⟩

lemma taken_takes (s : Esp) (c n : ℕ) : Takes s (s.taken c n) := by
  refine ⟨rfl, fun o => ?_, fun o => ?_⟩ <;> cases o with
  | none => rfl
  | some d =>
    by_cases hd : d = c
    · subst hd; simp [taken, connected, available]
    · simp [taken, connected, available, hd]

/-- Behind its turn a slot with a live client has less than a packet left. -/
lemma relaySlot_drains (hi : i < 16) (h : s.relaySlot i = some t) : Takes s t ∧
    (s.connected (s.wifiArr i) = true → t.available (s.wifiArr i) ≤ 31) := by
  unfold relaySlot at h
  by_cases hwaits : s.Waits i
  · rw [if_pos hwaits] at h
    cases hc : s.wifiArr i with
    | none =>
      have hlen := hwaits.2
      rw [hc] at hlen
      exact absurd hlen (by simp [available])
    | some c =>
      rw [relayToPi_eq hi hc] at h
      cases h
      have htakes := taken_takes {s with client := s.wifiArr i} c
        (32*((s.conns c).incoming.length/32))
      refine ⟨⟨htakes.slots, htakes.up, htakes.left⟩, fun _ => ?_⟩
      simp only [available, Option.map_some, Option.getD_some, taken_incoming, List.length_drop]
      omega
  · rw [if_neg hwaits] at h
    cases h
    refine ⟨⟨rfl, fun _ => rfl, fun _ => le_rfl⟩, fun hup => ?_⟩
    exact Nat.le_of_lt_succ (Nat.lt_of_not_le fun hlen => hwaits ⟨hup, hlen⟩)

lemma slots_drain {slots : List ℕ} (hslots : ∀ i ∈ slots, i < 16)
    (h : slots.foldlM relaySlot s = some t) : Takes s t ∧
      ∀ i ∈ slots, s.connected (s.wifiArr i) = true → t.available (s.wifiArr i) ≤ 31 := by
  induction slots generalizing s with
  | nil =>
    cases h
    exact ⟨⟨rfl, fun _ => rfl, fun _ => le_rfl⟩, List.forall_mem_nil _⟩
  | cons k slots ih =>
    rw [List.foldlM_cons] at h
    obtain ⟨u,hu,h⟩ := Option.bind_eq_some_iff.mp h
    obtain ⟨hfirst,hdrained⟩ := relaySlot_drains (hslots k (List.mem_cons_self ..)) hu
    obtain ⟨hrest,hall⟩ := ih (fun i hi => hslots i (List.mem_cons_of_mem _ hi)) h
    refine ⟨hfirst.trans hrest, fun i hi hup => ?_⟩
    rcases List.mem_cons.mp hi with rfl | hi
    · exact (hrest.left _).trans (hdrained hup)
    · rw [← hfirst.slots] at hup ⊢
      exact hall i hi ((hfirst.up _).trans hup)

/-- Every iteration relays all whole packets: a slot whose client is up has less than a packet
left. -/
theorem loop_drains {a : Act} (h : s.loop true env before during = some (t,a)) :
    ∀ i < 16, s.connected (t.wifiArr i) = true → t.available (t.wifiArr i) ≤ 31 := by
  rw [loop_eq] at h
  obtain ⟨u,hu,h⟩ := Option.bind_eq_some_iff.mp h
  rw [relays_server] at hu
  obtain ⟨⟨-,hincoming⟩,hkept⟩ := loopPi_reports h
  obtain ⟨htakes,hall⟩ := slots_drain (fun i hi => List.mem_range.mp hi) hu
  have hconns : (s.acceptClient env).conns = s.conns := by
    unfold acceptClient
    split <;> rfl
  intro i hi hup
  rw [hkept, htakes.slots] at hup ⊢
  have havail (o : Option ℕ) : t.available o = u.available o := by
    cases o with
    | none => rfl
    | some c => simp only [available, Option.map_some, hincoming]
  rw [havail]
  apply hall i (List.mem_range.mpr hi)
  unfold connected at hup ⊢
  rwa [hconns]

end Esp
end DistributedPis
