import DistributedPis.Esp.Collect
import DistributedPis.Library.Run

/-! The sketch as a reader of the serial line: which 32 byte units `loop()` cuts out of the
bytes from the Pi, and which commands it runs, for every arrival timing. -/
namespace DistributedPis
namespace Esp
open Library

/-- One iteration of `loop()` with its environment and the bytes that arrive. -/
structure Tick where
  env : Env
  before : List UInt8
  during : List UInt8

def arrivals (ts : List Tick) : List UInt8 := ts.flatMap (fun t => t.before ++ t.during)

/-- Iterate `loop()`, recording what each iteration did. -/
def runLoop (server : Bool) : List Tick → Esp → Option (Esp × List Act)
  | [], s => some (s, [])
  | t::ts, s => do
    let (s, a) ← s.loop server t.env t.before t.during
    let (s, as) ← runLoop server ts s
    some (s, a::as)

/-- The unit an iteration hands to `parsePacket`. -/
def Act.units : Act → List (List UInt8)
  | .parsed unit => [unit]
  | _ => []

/-- The message whose command an iteration runs, packet by packet. -/
def Act.messages : Act → List (List Packet)
  | .ran b => [b.cmndPckt :: (List.range b.numPckts).map
      (fun i => (b.buff.map (fun m => m.cells i)).getD (fun _ => 0))]
  | _ => []

/-- Nothing is ready to run and no whole packet waits. -/
def Settled (s : Esp) : Prop := s.fromPi.runRdy = false ∧ s.mySerial.length < 32

lemma relayToPi_frame {n : ℕ} {s t : Esp} (h : s.relayToPi n = some t) :
    t.fromPi = s.fromPi ∧ t.mySerial = s.mySerial := by
  unfold relayToPi at h
  split at h
  · cases h
  · dsimp only at h
    split at h <;> cases h <;> exact ⟨rfl,rfl⟩

/-- Relaying leaves the Pi's side of the sketch alone. -/
lemma relays_frame {server : Bool} {env : Env} {s t : Esp} (h : s.relays server env = some t) :
    t.fromPi = s.fromPi ∧ t.mySerial = s.mySerial := by
  have hfold : ∀ u : Esp, u.fromPi = s.fromPi ∧ u.mySerial = s.mySerial →
      (List.range 16).foldlM (fun s i =>
        if s.connected (s.wifiArr i) ∧ 31 < s.available (s.wifiArr i) then s.relayToPi i
        else some s) u = some t → t.fromPi = s.fromPi ∧ t.mySerial = s.mySerial := by
    intro u hu hrun
    refine foldlM_invariant (P := fun v => v.fromPi = s.fromPi ∧ v.mySerial = s.mySerial)
      ?_ hu hrun
    intro v i w hv hw
    split at hw
    · have hf := relayToPi_frame hw
      exact ⟨hf.1.trans hv.1, hf.2.trans hv.2⟩
    · cases hw; exact hv
  unfold relays at h
  split at h
  · dsimp only at h
    refine hfold _ ?_ h
    split <;> exact ⟨rfl,rfl⟩
  · split at h
    · exact relayToPi_frame h
    · cases h; exact ⟨rfl,rfl⟩

/-- The connection that `client` stands for behind the relays is up. The relay of a slot leaves the
slot's connection in it. -/
def HasClient (server : Bool) (env : Env) (s : Esp) : Prop :=
  if server then
    let s := s.acceptClient env
    s.connected s.client = true ∨ ∃ i ∈ List.range 16, s.Waits i
  else if 31 < s.available s.client then s.connected (s.wifiArr (s.i % 256)) = true
  else s.connected s.client = true

lemma relayToPi_returns {n : ℕ} (hn : n < 16) (s : Esp) : ∃ t, s.relayToPi n = some t ∧
    t.client = s.wifiArr n ∧ ∀ o, t.connected o = s.connected o := by
  rw [relayToPi, if_neg (by omega)]
  dsimp only
  cases s.wifiArr n with
  | none => exact ⟨_, rfl, rfl, fun _ => rfl⟩
  | some c =>
    refine ⟨_, rfl, rfl, fun o => ?_⟩
    cases o with
    | none => rfl
    | some d =>
      by_cases hd : d = c
      · subst hd; simp [connected, writePi]
      · simp [connected, writePi, hd]

/-- The slots are relayed one after the other; the last one that is relayed is the client. -/
lemma slots_return (slots : List ℕ) (hslots : ∀ i ∈ slots, i < 16) (s : Esp) :
    ∃ t, slots.foldlM relaySlot s = some t ∧
      (s.connected s.client = true ∨ (∃ i ∈ slots, s.Waits i) → t.connected t.client = true) := by
  induction slots generalizing s with
  | nil => exact ⟨s, rfl, by simp⟩
  | cons i slots ih =>
    have hrest : ∀ i ∈ slots, i < 16 := fun j hj => hslots j (List.mem_cons_of_mem _ hj)
    rw [List.foldlM_cons, relaySlot]
    by_cases hwaits : s.Waits i
    · obtain ⟨u,hu,hclient,hup⟩ := relayToPi_returns (hslots i (List.mem_cons_self ..)) s
      obtain ⟨t,ht,hlive⟩ := ih hrest u
      rw [if_pos hwaits, hu]
      refine ⟨t, ht, fun _ => hlive (.inl ?_)⟩
      rw [hup, hclient]
      exact hwaits.1
    · obtain ⟨t,ht,hlive⟩ := ih hrest s
      rw [if_neg hwaits]
      refine ⟨t, ht, fun h => hlive (h.imp_right fun hex => ?_)⟩
      simpa [hwaits] using hex

/-- With an index in bounds the relays come to their end. -/
lemma relays_return {server : Bool} (env : Env) {s : Esp}
    (hindex : server = false → 31 < s.available s.client → s.i % 256 < 16) :
    ∃ t, s.relays server env = some t ∧
      (HasClient server env s → t.connected t.client = true) := by
  cases server with
  | true =>
    rw [relays_server]
    exact slots_return _ (fun i hi => List.mem_range.mp hi) (s.acceptClient env)
  | false =>
    rw [relays_client]
    by_cases hwaits : 31 < s.available s.client
    · obtain ⟨t,ht,hclient,hup⟩ := relayToPi_returns (hindex rfl hwaits) s
      rw [if_pos hwaits]
      refine ⟨t, ht, fun h => ?_⟩
      simp only [HasClient, Bool.false_eq_true, if_false, hwaits, if_true] at h
      rw [hup, hclient, h]
    · rw [if_neg hwaits]
      refine ⟨s, rfl, fun h => ?_⟩
      simpa only [HasClient, Bool.false_eq_true, if_false, hwaits] using h

/-- The commands that `send_msg` passes on. -/
def PassedOn (cmnd : UInt8) : Prop := cmnd = espSendData ∨ cmnd = espAck ∨ cmnd = espNoack

lemma execute_isSome {server : Bool} {env : Env} {s : Esp} (h : PassedOn s.fromPi.cmnd →
    s.connected s.client = true ∨ env.connect.isSome = true) :
    (s.execute server env).isSome = true := by
  have hsend := fun hcmnd => (sendMsg_isSome_iff server env s).mpr (h hcmnd)
  unfold execute
  split_ifs with _ hdata _ _ _ _ hack hnoack
  · rfl
  · exact hsend (.inl hdata)
  · rfl
  · rfl
  · rfl
  · rfl
  · exact hsend (.inr (.inl hack))
  · exact hsend (.inr (.inr hnoack))
  · rfl

/-- A packet is stored or turned down as long as the block has room for the next one. -/
lemma parsePacket_isSome {s : Esp}
    (hroom : ∀ b, s.fromPi.buff = some b → 32*s.fromPi.curPckts + 32 ≤ b.size)
    (malloc : Option (ℕ → Packet)) (p : Packet) : (s.parsePacket malloc p).isSome = true := by
  unfold parsePacket
  dsimp only
  split_ifs
  · rfl
  · rfl
  · rfl
  · rfl
  · rfl
  · split
    · rfl
    · rename_i b hb
      rw [if_pos (hroom b hb)]
      rfl

lemma runCmnd_idle {server : Bool} {env : Env} {during : List UInt8} {s t : Esp}
    (h : s.runCmnd server env during = some t) :
    (∃ q, t.fromPi = idleBuff q) ∧ t.mySerial = [] := by
  unfold runCmnd at h
  obtain ⟨u,_,hu⟩ := Option.bind_eq_some_iff.mp h
  cases hu
  exact ⟨⟨_,rfl⟩,rfl⟩

/-- Everything one iteration can do on the Pi's side. -/
theorem loop_cases {server : Bool} {env : Env} {before during : List UInt8} {s t : Esp} {a : Act}
    (h : s.loop server env before during = some (t,a)) :
    (s.fromPi.runRdy = true ∧ a = .ran s.fromPi ∧ (∃ q, t.fromPi = idleBuff q) ∧
      t.mySerial = []) ∨
    (s.fromPi.runRdy = false ∧ 31 < (s.mySerial ++ before).length ∧
      a = .parsed ((s.mySerial ++ before).take 32) ∧
      ∃ r : Esp, r.fromPi = s.fromPi ∧ r.mySerial = (s.mySerial ++ before).drop 32 ++ during ∧
        r.parsePacket env.malloc (packetOf ((s.mySerial ++ before).take 32)) = some t) ∨
    (s.fromPi.runRdy = false ∧ (s.mySerial ++ before).length ≤ 31 ∧ a = .idle ∧
      t.fromPi = s.fromPi ∧ t.mySerial = s.mySerial ++ before ++ during) := by
  unfold loop at h
  obtain ⟨r,hr,h⟩ := Option.bind_eq_some_iff.mp h
  obtain ⟨hbuff,hserial⟩ := relays_frame hr
  dsimp only at h
  rw [hbuff, hserial] at h
  by_cases hrdy : s.fromPi.runRdy = true
  · left
    rw [if_pos hrdy] at h
    obtain ⟨u,hu,h⟩ := Option.bind_eq_some_iff.mp h
    cases h
    obtain ⟨hq,hs⟩ := runCmnd_idle hu
    exact ⟨hrdy, rfl, hq, hs⟩
  · have hrdy' := Bool.eq_false_iff.mpr hrdy
    rw [if_neg hrdy] at h
    right
    by_cases hlen : 31 < (s.mySerial ++ before).length
    · left
      rw [if_pos hlen] at h
      obtain ⟨u,hu,h⟩ := Option.bind_eq_some_iff.mp h
      cases h
      refine ⟨hrdy', hlen, rfl, _, ?_, ?_, hu⟩ <;> rfl
    · right
      rw [if_neg hlen] at h
      cases h
      exact ⟨hrdy', Nat.le_of_not_lt hlen, rfl, rfl, rfl⟩

/-- Where the parser stands in the messages that are still to be executed: between two
messages, or behind the command packet and `c` data packets of the first one. -/
inductive Phase : List Msg → ℕ → PiBuff → Prop
  | idle (ms : List Msg) (q : Packet) : Phase ms 0 (idleBuff q)
  | inside {m : Msg} {ms : List Msg} {malloc : Option (ℕ → Packet)} {hdr : Packet}
      {ds : List Packet} (c : ℕ) (pckts : m.pckts = hdr::ds) (wf : IsMessage hdr ds)
      (fits : 32*ds.length < 2^32) (alloc : ds ≠ [] → malloc.isSome = true)
      (reached : c ≤ ds.length) : Phase (m::ms) (c+1) (collected malloc hdr ds c)

/-- The packets behind position `j`. -/
def remaining (ms : List Msg) (j : ℕ) : List Packet := (ms.flatMap Msg.pckts).drop j

/-- A message that `sendCmd` can produce, with a command for the sketch. -/
structure Sendable (m : Msg) : Prop where
  cmd : m.cmd ≠ 0
  size : m.payload.length ≤ maxPayload

/-- The next whole packet on the line. -/
def nextPacket (s : Esp) (t : Tick) : Packet := packetOf ((s.mySerial ++ t.before).take 32)

/-- When a command has run, no byte of the next message is there to be drained; and `malloc`
succeeds for every command packet that announces data. -/
structure Undisturbed (s : Esp) (t : Tick) : Prop where
  drained : s.fromPi.runRdy = true → s.mySerial ++ (t.before ++ t.during) = []
  malloc : s.fromPi.cmnd = 0 → 31 < (s.mySerial ++ t.before).length →
    npckts (nextPacket s t).size ≠ 0 → t.env.malloc.isSome = true

/-- The iteration comes to its end as well: the index of a relay is in bounds, and where a message
is passed on, the client is up or one of the `connect` calls succeeds. -/
structure Unhindered (server : Bool) (s : Esp) (t : Tick) : Prop extends Undisturbed s t where
  index : server = false → 31 < s.available s.client → s.i % 256 < 16
  connects : s.fromPi.runRdy = true → PassedOn s.fromPi.cmnd →
    HasClient server t.env s ∨ t.env.connect.isSome = true

/-- The state behind an iteration. -/
def next (server : Bool) (s : Esp) (t : Tick) : Option Esp :=
  (s.loop server t.env t.before t.during).map Prod.fst

/-- Every iteration of a run is undisturbed. -/
def AllUndisturbed (server : Bool) (ts : List Tick) (s : Esp) : Prop :=
  Meets (next server) Undisturbed s ts

lemma next_eq {server : Bool} {s s' : Esp} {t : Tick} {a : Act}
    (h : s.loop server t.env t.before t.during = some (s',a)) : s.next server t = some s' := by
  rw [next, h]
  rfl

/-- The first whole unit of a byte stream that starts on a packet boundary. -/
lemma first_unit {p : Packet} {ps : List Packet} {xs zs : List UInt8}
    (h : wire (p::ps) = xs ++ zs) (hlen : 31 < xs.length) :
    xs.take 32 = p.bytes ∧ wire ps = xs.drop 32 ++ zs := by
  have hx : p.bytes ++ wire ps = xs.take 32 ++ (xs.drop 32 ++ zs) := by
    rw [← wire_cons, h, ← List.append_assoc, List.take_append_drop]
  obtain ⟨h₁,h₂⟩ := List.append_inj hx (by simp; omega)
  exact ⟨h₁.symm,h₂⟩

lemma remaining_succ {m : Msg} {ms : List Msg} {hdr : Packet} {ds : List Packet}
    (hp : m.pckts = hdr::ds) (c : ℕ) (hc : c < ds.length) :
    remaining (m::ms) (c+1) = ds[c]::remaining (m::ms) (c+2) := by
  rw [remaining, List.drop_eq_getElem_cons (by simp [hp]; omega)]
  simp [remaining, hp, List.getElem_append_left hc]

lemma remaining_done {m : Msg} {ms : List Msg} {hdr : Packet} {ds : List Packet}
    (hp : m.pckts = hdr::ds) : remaining (m::ms) (ds.length+1) = remaining ms 0 := by
  simp [remaining, hp]

lemma messages_collected {malloc : Option (ℕ → Packet)} {hdr : Packet} {ds : List Packet}
    (halloc : ds ≠ [] → malloc.isSome = true) :
    (Act.ran (collected malloc hdr ds ds.length)).messages = [hdr::ds] := by
  simp only [Act.messages, collected, checkFull_cmndPckt, checkFull_numPckts, checkFull_buff,
    List.take_length]
  congr 2
  apply List.ext_getElem
  · simp
  · intro i _ hi
    obtain ⟨cells,rfl⟩ := Option.isSome_iff_exists.mp (halloc (List.ne_nil_of_length_pos (by omega)))
    simp [storeAll_of_lt _ _ _ hi]

/-- The message at the front of the stream, as the parser sees it. -/
lemma sendable_isMessage {m : Msg} (h : Sendable m) :
    ∃ hdr ds, m.pckts = hdr::ds ∧ IsMessage hdr ds ∧ 32*ds.length < 2^32 := by
  have hsize : m.payload.length < 2^32 := h.size.trans_lt (by decide)
  obtain ⟨hdr,ds,hsend,hm,rfl,_,_⟩ :=
    cmdPckts_isMessage m.heap m.cmd m.toId m.fromId m.payload h.cmd hsize
  exact ⟨hdr, _, hsend, hm, by simpa using (npckts_lt_iff _).mpr h.size⟩

/-- How the parser goes from position `j` of `ms` to position `j'` of `ms'`: it takes `units` from
the stream and runs `messages`, and loses nothing of either; `rest` has not arrived yet. -/
structure Moves (rest : List UInt8) (ms : List Msg) (j : ℕ) (units : List (List UInt8))
    (messages : List (List Packet)) (ms' : List Msg) (j' : ℕ) (s' : Esp) : Prop where
  phase : Phase ms' j' s'.fromPi
  sendable : ∀ m ∈ ms', Sendable m
  stream : wire (remaining ms' j') = s'.mySerial ++ rest
  taken : (remaining ms j).map Packet.bytes = units ++ (remaining ms' j').map Packet.bytes
  ran : ms.map Msg.pckts = messages ++ ms'.map Msg.pckts

section Moving
variable {rest xs during : List UInt8} {m : Msg} {ms ms₁ ms₂ : List Msg} {j j₁ j₂ : ℕ}
  {us vs : List (List UInt8)} {rs ws : List (List Packet)} {s s₁ s₂ : Esp} {b : PiBuff}
  {q : Packet} {malloc : Option (ℕ → Packet)}

lemma Moves.trans {rest₁ : List UInt8} (h₁ : Moves rest₁ ms j us rs ms₁ j₁ s₁)
    (h₂ : Moves rest ms₁ j₁ vs ws ms₂ j₂ s₂) :
    Moves rest ms j (us++vs) (rs++ws) ms₂ j₂ s₂ where
  phase := h₂.phase
  sendable := h₂.sendable
  stream := h₂.stream
  taken := by rw [h₁.taken, h₂.taken, List.append_assoc]
  ran := by rw [h₁.ran, h₂.ran, List.append_assoc]

/-- After a command the parser is in front of the next message. -/
lemma ran_moves (hms : ∀ m ∈ ms, Sendable m) (hphase : Phase ms j b) (hrdy : b.runRdy = true)
    (hwire : wire (remaining ms j) = rest) (hq : s.fromPi = idleBuff q)
    (hserial : s.mySerial = []) :
    ∃ ms', Moves rest ms j [] (Act.ran b).messages ms' 0 s := by
  cases hphase with
  | idle => cases hrdy
  | @inside m ms malloc hdr ds c pckts wf fits alloc reached =>
    obtain rfl := (collected_runRdy reached).mp hrdy
    refine ⟨ms, ?_, fun m hm => hms m (List.mem_cons_of_mem _ hm), ?_, ?_, ?_⟩
    · rw [hq]
      exact .idle ms q
    · rw [← remaining_done pckts, hwire, hserial]
      rfl
    · rw [remaining_done pckts]
      rfl
    · rw [messages_collected alloc, List.map_cons, pckts]
      rfl

/-- Between two messages the next unit is a command packet. -/
lemma header_moves (hms : ∀ m ∈ ms, Sendable m)
    (hwire : wire (remaining ms 0) = xs ++ (during ++ rest)) (hlen : 31 < xs.length)
    (hs : s.fromPi = idleBuff q) (hserial : s.mySerial = xs.drop 32 ++ during)
    (hmalloc : npckts (packetOf (xs.take 32)).size ≠ 0 → malloc.isSome = true)
    (hparse : s.parsePacket malloc (packetOf (xs.take 32)) = some s₁) :
    Moves rest ms 0 [xs.take 32] [] ms 1 s₁ := by
  cases ms with
  | nil =>
    have hl := congrArg List.length hwire
    simp only [remaining, List.flatMap_nil, List.drop_nil, wire_nil, List.length_nil,
      List.length_append] at hl
    omega
  | cons m ms =>
    obtain ⟨hdr,ds,hp,hm,hfits⟩ := sendable_isMessage (hms m (List.mem_cons_self ..))
    have hrem : remaining (m::ms) 0 = hdr::remaining (m::ms) 1 := by simp [remaining, hp]
    rw [hrem] at hwire
    obtain ⟨hunit,hrest⟩ := first_unit hwire hlen
    rw [hunit, packetOf_bytes] at hparse hmalloc
    rw [parsePacket_header hm hs] at hparse
    cases hparse
    have halloc : ds ≠ [] → malloc.isSome = true := by
      intro hne
      refine hmalloc ?_
      rw [hm.size]
      exact (List.length_pos_iff.mpr hne).ne'
    refine ⟨.inside 0 hp hm hfits halloc (Nat.zero_le _), hms, ?_, ?_, rfl⟩
    · rw [hrest, hserial, List.append_assoc]
    · rw [hrem, hunit]
      rfl

/-- Inside a message the next unit is its next data packet. -/
lemma data_moves {hdr : Packet} {ds : List Packet} {c : ℕ}
    (hms : ∀ x ∈ m::ms, Sendable x) (hp : m.pckts = hdr::ds) (hm : IsMessage hdr ds)
    (hfits : 32*ds.length < 2^32) (halloc : ds ≠ [] → malloc.isSome = true) (hc : c < ds.length)
    (hwire : wire (remaining (m::ms) (c+1)) = xs ++ (during ++ rest)) (hlen : 31 < xs.length)
    (hs : s.fromPi = collected malloc hdr ds c) (hserial : s.mySerial = xs.drop 32 ++ during)
    {malloc' : Option (ℕ → Packet)}
    (hparse : s.parsePacket malloc' (packetOf (xs.take 32)) = some s₁) :
    Moves rest (m::ms) (c+1) [xs.take 32] [] (m::ms) (c+2) s₁ := by
  obtain ⟨cells,rfl⟩ := Option.isSome_iff_exists.mp
    (halloc (List.ne_nil_of_length_pos (by omega)))
  have hrem : remaining (m::ms) (c+1) = ds[c]::remaining (m::ms) (c+2) := remaining_succ hp c hc
  rw [hrem] at hwire
  obtain ⟨hunit,hrest⟩ := first_unit hwire hlen
  have hnext := parsePacket_data (s := s) hm hc hs (by rw [Nat.mod_eq_of_lt hfits]; omega) malloc'
  rw [hunit, packetOf_bytes, hnext] at hparse
  cases hparse
  refine ⟨.inside (c+1) hp hm hfits halloc hc, hms, ?_, ?_, rfl⟩
  · rw [hrest, hserial, List.append_assoc]
  · rw [hrem, hunit]
    rfl

end Moving

/-- While packets are missing, the block of the message has room for the next one. -/
lemma Phase.room {ms : List Msg} {j : ℕ} {b : PiBuff} (h : Phase ms j b)
    (hrdy : b.runRdy = false) : ∀ m, b.buff = some m → 32*b.curPckts + 32 ≤ m.size := by
  cases h with
  | idle => exact nofun
  | @inside m ms malloc hdr ds c pckts wf fits alloc reached =>
    have hlt : c < ds.length := by
      refine Nat.lt_of_le_of_ne reached fun hc => ?_
      rw [(collected_runRdy reached).mpr hc] at hrdy
      cases hrdy
    rw [collected_of_lt hlt]
    rintro m hm
    obtain ⟨cells,-,rfl⟩ := Option.map_eq_some_iff.mp hm
    dsimp only
    rw [Nat.mod_eq_of_lt fits]
    omega

/-- An iteration that nothing hinders comes to its end. -/
theorem loop_returns {server : Bool} {t : Tick} {s : Esp} {ms : List Msg} {j : ℕ}
    (hphase : Phase ms j s.fromPi) (hok : Unhindered server s t) :
    ∃ s' a, s.loop server t.env t.before t.during = some (s',a) := by
  obtain ⟨r,hr,hlive⟩ := relays_return t.env hok.index
  obtain ⟨hbuff,-⟩ := relays_frame hr
  rw [loop, hr]
  dsimp only [Option.bind_eq_bind, Option.bind_some]
  by_cases hrdy : s.fromPi.runRdy = true
  · have hconnects := hok.connects hrdy
    rw [← hbuff] at hrdy hconnects
    have hexec : (execute server t.env {r with mySerial := r.mySerial ++ t.before}).isSome = true :=
      execute_isSome fun hcmnd => (hconnects hcmnd).imp_left hlive
    obtain ⟨u,hu⟩ := Option.isSome_iff_exists.mp hexec
    rw [if_pos hrdy, runCmnd, hu]
    exact ⟨_, _, rfl⟩
  · have hroom := hphase.room (Bool.eq_false_iff.mpr hrdy)
    rw [← hbuff] at hrdy hroom
    rw [if_neg hrdy]
    split_ifs
    · obtain ⟨u,hu⟩ := Option.isSome_iff_exists.mp (parsePacket_isSome
        (s := {r with mySerial := (r.mySerial ++ t.before).drop 32 ++ t.during}) hroom
        t.env.malloc (packetOf ((r.mySerial ++ t.before).take 32)))
      rw [hu]
      exact ⟨_, _, rfl⟩
    · exact ⟨_, _, rfl⟩

/-- One undisturbed iteration moves the parser along the stream. -/
theorem loop_step {server : Bool} {t : Tick} {s s' : Esp} {a : Act} {ms : List Msg} {j : ℕ}
    {rest : List UInt8} (hms : ∀ m ∈ ms, Sendable m)
    (hphase : Phase ms j s.fromPi) (hok : Undisturbed s t)
    (hwire : wire (remaining ms j) = s.mySerial ++ (t.before ++ t.during) ++ rest)
    (h : s.loop server t.env t.before t.during = some (s',a)) :
    ∃ ms' j', Moves rest ms j a.units a.messages ms' j' s' := by
  have hsplit : s.mySerial ++ (t.before ++ t.during) ++ rest =
      (s.mySerial ++ t.before) ++ (t.during ++ rest) := by simp
  rcases loop_cases h with ⟨hrdy,rfl,⟨q,hq⟩,hserial⟩ | ⟨hrdy,hlen,rfl,r,hr,hrs,hparse⟩ |
    ⟨hrdy,hlen,rfl,hb,hserial⟩
  · rw [hok.drained hrdy] at hwire
    obtain ⟨ms',hmoves⟩ := ran_moves hms hphase hrdy hwire hq hserial
    exact ⟨ms', 0, hmoves⟩
  · have hmalloc := hok.malloc
    rw [hsplit] at hwire
    unfold nextPacket at hmalloc
    generalize hb : s.fromPi = b at hphase
    rw [hb] at hr hrdy hmalloc
    cases hphase with
    | idle _ q => exact ⟨ms, 1, header_moves hms hwire hlen hr hrs (hmalloc rfl hlen) hparse⟩
    | @inside m ms malloc hdr ds c pckts wf fits alloc reached =>
      have hlt : c < ds.length := by
        refine Nat.lt_of_le_of_ne reached fun hc => ?_
        rw [(collected_runRdy reached).mpr hc] at hrdy
        cases hrdy
      exact ⟨m::ms, c+2, data_moves hms pckts wf fits alloc hlt hwire hlen hr hrs hparse⟩
  · exact ⟨ms, j, by rwa [hb], hms, by rw [hwire, hserial, hsplit]; simp, rfl, rfl⟩

/-- A run is an iteration and the rest of the run. -/
lemma runLoop_cons_iff {server : Bool} {t : Tick} {ts : List Tick} {s u : Esp} {as : List Act} :
    runLoop server (t::ts) s = some (u,as) ↔ ∃ s' a bs,
      s.loop server t.env t.before t.during = some (s',a) ∧
      runLoop server ts s' = some (u,bs) ∧ as = a::bs := by
  constructor
  · intro h
    rw [runLoop] at h
    obtain ⟨⟨s',a⟩,hstep,h⟩ := Option.bind_eq_some_iff.mp h
    obtain ⟨⟨v,bs⟩,hrun,h⟩ := Option.bind_eq_some_iff.mp h
    cases h
    exact ⟨s', a, bs, hstep, hrun, rfl⟩
  · rintro ⟨s',a,bs,hstep,hrun,rfl⟩
    rw [runLoop, hstep]
    change (runLoop server ts s').bind _ = _
    rw [hrun]
    rfl

/-- The bytes of the first iteration come first. -/
lemma arrivals_cons (bs : List UInt8) (t : Tick) (ts : List Tick) (rest : List UInt8) :
    bs ++ arrivals (t::ts) ++ rest = bs ++ (t.before ++ t.during) ++ (arrivals ts ++ rest) := by
  simp [arrivals]

/-- A whole run moves the parser along the stream. -/
theorem runLoop_steps {server : Bool} {ts : List Tick} {s u : Esp} {as : List Act}
    {ms : List Msg} {j : ℕ} {rest : List UInt8} (hms : ∀ m ∈ ms, Sendable m)
    (hphase : Phase ms j s.fromPi) (hok : AllUndisturbed server ts s)
    (hwire : wire (remaining ms j) = s.mySerial ++ arrivals ts ++ rest)
    (h : runLoop server ts s = some (u,as)) :
    ∃ ms' j', Moves rest ms j (as.flatMap Act.units) (as.flatMap Act.messages) ms' j' u := by
  induction ts generalizing s as ms j with
  | nil =>
    cases h
    exact ⟨ms, j, hphase, hms, by simpa [arrivals] using hwire, rfl, rfl⟩
  | cons t ts ih =>
    obtain ⟨s',a,bs,hstep,hrun,rfl⟩ := runLoop_cons_iff.mp h
    rw [arrivals_cons] at hwire
    obtain ⟨ms₁,j₁,hstep'⟩ := loop_step hms hphase hok.1 hwire hstep
    obtain ⟨ms₂,j₂,hrun'⟩ := ih hstep'.sendable hstep'.phase (hok.2 s' (next_eq hstep))
      (by rw [hstep'.stream, List.append_assoc]) hrun
    exact ⟨ms₂, j₂, hstep'.trans hrun'⟩

/-- A run that nothing hinders comes to its end. -/
theorem runLoop_returns {server : Bool} {ts : List Tick} {s : Esp} {ms : List Msg} {j : ℕ}
    {rest : List UInt8} (hms : ∀ m ∈ ms, Sendable m) (hphase : Phase ms j s.fromPi)
    (hok : Meets (next server) (Unhindered server) s ts)
    (hwire : wire (remaining ms j) = s.mySerial ++ arrivals ts ++ rest) :
    ∃ u as, runLoop server ts s = some (u,as) := by
  induction ts generalizing s ms j with
  | nil => exact ⟨s, [], rfl⟩
  | cons t ts ih =>
    rw [arrivals_cons] at hwire
    obtain ⟨s',a,hstep⟩ := loop_returns hphase hok.1
    obtain ⟨ms₁,j₁,hmoves⟩ := loop_step hms hphase hok.1.toUndisturbed hwire hstep
    obtain ⟨u,as,hrun⟩ := ih hmoves.sendable hmoves.phase (hok.2 s' (next_eq hstep))
      (by rw [hmoves.stream, List.append_assoc])
    exact ⟨u, a::as, runLoop_cons_iff.mpr ⟨s', a, as, hstep, hrun, rfl⟩⟩

lemma runLoop_append {server : Bool} {xs ys : List Tick} {s u : Esp} {as : List Act}
    (h : runLoop server (xs ++ ys) s = some (u,as)) : ∃ v bs cs,
    runLoop server xs s = some (v,bs) ∧ runLoop server ys v = some (u,cs) ∧ as = bs ++ cs := by
  induction xs generalizing s as with
  | nil => exact ⟨s, [], as, rfl, h, rfl⟩
  | cons x xs ih =>
    obtain ⟨s',a,ds,hstep,hrun,rfl⟩ := runLoop_cons_iff.mp h
    obtain ⟨v,bs,cs,hxs,hys,rfl⟩ := ih hrun
    exact ⟨v, a::bs, cs, runLoop_cons_iff.mpr ⟨s', a, bs, hstep, hxs, rfl⟩, hys, rfl⟩

/-- Once the stream is used up and the sketch has settled, no message is left. -/
lemma settled_done {ms : List Msg} {j : ℕ} {s : Esp} (hms : ∀ m ∈ ms, Sendable m)
    (hphase : Phase ms j s.fromPi) (hwire : wire (remaining ms j) = s.mySerial)
    (hs : Settled s) : ms = [] := by
  have hshort := hs.2
  rw [← hwire, wire_length] at hshort
  have hnil : (remaining ms j).length = 0 := by omega
  have hrdy := hs.1
  generalize s.fromPi = b at hphase hrdy
  cases hphase with
  | idle =>
    cases ms with
    | nil => rfl
    | cons m ms =>
      obtain ⟨hdr,ds,hp,_,_⟩ := sendable_isMessage (hms m (List.mem_cons_self ..))
      simp [remaining, hp] at hnil
  | @inside m ms malloc hdr ds c pckts wf fits alloc reached =>
    have hc : c = ds.length := by
      simp [remaining, pckts] at hnil
      omega
    rw [(collected_runRdy reached).mpr hc] at hrdy
    cases hrdy

/-- Iterations without new bytes that the sketch needs before it settles. -/
def work (s : Esp) : ℕ := 2*(s.mySerial.length/32) + if s.fromPi.runRdy then 1 else 0

lemma work_step {server : Bool} {t : Tick} {s s' : Esp} {a : Act}
    (hquiet : t.before = [] ∧ t.during = [])
    (h : s.loop server t.env t.before t.during = some (s',a)) : work s' ≤ work s - 1 := by
  obtain ⟨hbefore,hduring⟩ := hquiet
  rw [hbefore, hduring] at h
  rcases loop_cases h with ⟨hrdy,_,⟨q,hq⟩,hserial⟩ | ⟨hrdy,hlen,_,r,_,hrs,hparse⟩ |
    ⟨hrdy,hlen,_,hb,hserial⟩
  · simp [work, hq, hserial, idleBuff]
  · obtain ⟨b,bs,hbs,rfl⟩ := parsePacket_frame hparse
    have hle := hbs.length_le
    rw [hrs] at hle
    simp only [List.append_nil, List.length_drop] at hle hlen
    unfold work
    rw [hrdy]
    split <;> simp only [Bool.false_eq_true, if_false] <;> omega
  · simp only [List.append_nil] at hlen hserial
    simp [work, hb, hserial, hrdy, Nat.div_eq_of_lt (Nat.lt_succ_of_le hlen)]

/-- `loop()` never gets stuck on what it has: once bytes stop arriving, it settles. -/
theorem runLoop_settles {server : Bool} {ts : List Tick} {s u : Esp} {as : List Act}
    (hquiet : ∀ t ∈ ts, t.before = [] ∧ t.during = []) (hwork : work s ≤ ts.length)
    (h : runLoop server ts s = some (u,as)) : Settled u := by
  induction ts generalizing s as with
  | nil =>
    cases h
    have h0 : work u = 0 := Nat.le_zero.mp hwork
    unfold work at h0
    split at h0
    · omega
    · rename_i hr
      exact ⟨Bool.eq_false_iff.mpr hr, by omega⟩
  | cons t ts ih =>
    obtain ⟨s',a,bs,hstep,hrun,rfl⟩ := runLoop_cons_iff.mp h
    have hw := work_step (hquiet t (List.mem_cons_self ..)) hstep
    simp only [List.length_cons] at hwork
    exact ih (fun t ht => hquiet t (List.mem_cons_of_mem _ ht)) (by omega) hrun

/-- The units handed to the parser are whole packets of the stream in order, and the executed
messages are the first ones sent. Once the last byte has come, two iterations for each packet and
one more are enough for all of them to have been executed, each once. -/
structure Delivered (msgs : List Msg) (ts : List Tick) (acts : List Act) : Prop where
  units : acts.flatMap Act.units <+: (msgs.flatMap Msg.pckts).map Packet.bytes
  inOrder : acts.flatMap Act.messages <+: msgs.map Msg.pckts
  all : ∀ xs ys, ts = xs ++ ys → arrivals xs = wire (msgs.flatMap Msg.pckts) →
    2*(msgs.flatMap Msg.pckts).length < ys.length →
      acts.flatMap Act.messages = msgs.map Msg.pckts

lemma arrivals_append (xs ys : List Tick) : arrivals (xs ++ ys) = arrivals xs ++ arrivals ys :=
  List.flatMap_append

/-- When everything has come, the sketch is done after two iterations for each packet. -/
lemma settled_of_length {server : Bool} {xs ys : List Tick} {s u : Esp} {as : List Act}
    {msgs : List Msg} {q : Packet} (hms : ∀ m ∈ msgs, Sendable m) (hidle : s.fromPi = idleBuff q)
    (hempty : s.mySerial = []) (hok : AllUndisturbed server (xs ++ ys) s)
    (harr : arrivals xs = wire (msgs.flatMap Msg.pckts)) (hquiet : arrivals ys = [])
    (hlong : 2*(msgs.flatMap Msg.pckts).length < ys.length)
    (h : runLoop server (xs ++ ys) s = some (u,as)) : Settled u := by
  obtain ⟨v,bs,cs,hxs,hys,-⟩ := runLoop_append h
  have hphase : Phase msgs 0 s.fromPi := hidle ▸ Phase.idle msgs q
  have hstart : wire (remaining msgs 0) = s.mySerial ++ arrivals xs ++ [] := by
    simp [remaining, hempty, harr]
  obtain ⟨ms,j,hmoves⟩ := runLoop_steps hms hphase hok.of_append hstart hxs
  have hwaiting : v.mySerial.length ≤ 32*(msgs.flatMap Msg.pckts).length := by
    have htaken := congrArg List.length hmoves.taken
    have hstream := congrArg List.length hmoves.stream
    simp only [List.length_map, List.length_append, wire_length, List.length_nil] at htaken hstream
    have hall : (remaining msgs 0).length = (msgs.flatMap Msg.pckts).length := rfl
    omega
  refine runLoop_settles (fun t ht => ?_) ?_ hys
  · have hnone := List.flatMap_eq_nil_iff.mp hquiet t ht
    exact List.append_eq_nil_iff.mp hnone
  · unfold work
    split <;> omega

/-- An undisturbed run from between two messages delivers. -/
lemma delivered_of_run {server : Bool} {ts : List Tick} {s u : Esp} {acts : List Act}
    {msgs : List Msg} {q : Packet} (hms : ∀ m ∈ msgs, Sendable m) (hidle : s.fromPi = idleBuff q)
    (hempty : s.mySerial = []) (harr : arrivals ts <+: wire (msgs.flatMap Msg.pckts))
    (hok : AllUndisturbed server ts s) (hrun : runLoop server ts s = some (u,acts)) :
    Delivered msgs ts acts := by
  obtain ⟨rest,hrest⟩ := harr
  have hphase : Phase msgs 0 s.fromPi := hidle ▸ Phase.idle msgs q
  have hstart : wire (remaining msgs 0) = s.mySerial ++ arrivals ts ++ rest := by
    simpa [remaining, hempty] using hrest.symm
  obtain ⟨ms,j,hmoves⟩ := runLoop_steps hms hphase hok hstart hrun
  refine ⟨⟨_,hmoves.taken.symm⟩, ⟨_,hmoves.ran.symm⟩, ?_⟩
  rintro xs ys rfl hall hlong
  rw [arrivals_append, hall, List.append_assoc] at hrest
  obtain ⟨hquiet,hnil⟩ := List.append_eq_nil_iff.mp (List.append_right_eq_self.mp hrest)
  have hset := settled_of_length hms hidle hempty hok hall hquiet hlong hrun
  have hwire : wire (remaining ms j) = u.mySerial := by rw [hmoves.stream, hnil, List.append_nil]
  have hdone : ms = [] := settled_done hmoves.sendable hmoves.phase hwire hset
  rw [hmoves.ran, hdone, List.map_nil, List.append_nil]

/-- Every run in which nothing keeps an iteration from its end, and `clean()` finds nothing to
drain after a command, comes to its end and delivers its messages. -/
theorem runLoop_delivers (server : Bool) (conns : ℕ → Conn) (msgs : List Msg)
    (pckts : List Packet) (ts : List Tick) (hcmd : ∀ m ∈ msgs, m.cmd ≠ 0)
    (hsend : sendAll msgs = some pckts) (harr : arrivals ts <+: wire pckts)
    (hok : Meets (next server) (Unhindered server) (setup conns) ts) :
    ∃ u acts, runLoop server ts (setup conns) = some (u,acts) ∧ Delivered msgs ts acts := by
  obtain ⟨hsize,rfl⟩ := (sendAll_eq_some_iff msgs pckts).mp hsend
  have hms : ∀ m ∈ msgs, Sendable m := fun m hm => ⟨hcmd m hm, hsize m hm⟩
  have hundisturbed : AllUndisturbed server ts (setup conns) :=
    hok.mono fun _ _ h => h.toUndisturbed
  obtain ⟨rest,hrest⟩ := id harr
  have hstart : wire (remaining msgs 0) = (setup conns).mySerial ++ arrivals ts ++ rest := by
    simpa [remaining, setup] using hrest.symm
  obtain ⟨u,acts,hrun⟩ := runLoop_returns hms (.idle msgs _) hok hstart
  exact ⟨u, acts, hrun, delivered_of_run hms rfl rfl harr hundisturbed hrun⟩

/-- A command without data for the ESP itself. -/
def isConnectedMsg : Msg := ⟨fun _ => 0, espIsConnected, selfId, selfId, []⟩

/-- The message arrives, and is collected and executed. -/
def spaced : List Tick :=
  ⟨plainEnv, wire isConnectedMsg.pckts, []⟩ :: List.replicate 3 ⟨plainEnv, [], []⟩

/-- Nothing goes wrong in an iteration of the server build that has no command to run. -/
lemma unhindered_unready {s : Esp} {bs : List UInt8} (h : s.fromPi.runRdy = false) :
    Unhindered true s ⟨plainEnv, bs, []⟩ where
  drained hrdy := by rw [h] at hrdy; cases hrdy
  malloc _ _ _ := rfl
  index hserver := by cases hserver
  connects hrdy := by rw [h] at hrdy; cases hrdy

theorem runLoop_delivers_spaced : ∃ u acts,
    runLoop true spaced (setup (fun _ => ⟨true, [], [], .unset⟩)) = some (u,acts) ∧
    Delivered [isConnectedMsg] spaced acts := by
  refine runLoop_delivers true _ [isConnectedMsg] isConnectedMsg.pckts spaced ?_ ?_ ?_ ?_
  · intro m hm
    obtain rfl := List.mem_singleton.mp hm
    decide
  · exact (sendAll_eq_some_iff ..).mpr ⟨by simp [isConnectedMsg], by simp⟩
  · simp [spaced, arrivals]
  · have hcmnd : ¬PassedOn espIsConnected := by
      simp [PassedOn, espIsConnected, espSendData, espAck, espNoack]
    refine ⟨unhindered_unready rfl, fun s h => ?_⟩
    cases h
    refine ⟨⟨⟨fun _ => rfl, fun _ _ _ => rfl⟩, nofun, fun _ h => absurd h hcmnd⟩, fun s h => ?_⟩
    cases h
    refine ⟨unhindered_unready rfl, fun s h => ?_⟩
    cases h
    exact ⟨unhindered_unready rfl, fun _ _ => trivial⟩

/-- All bytes arrive at once, and then nothing for a while. -/
def burst : List Tick :=
  ⟨plainEnv, wire (isConnectedMsg.pckts ++ isConnectedMsg.pckts), []⟩ ::
    List.replicate 5 ⟨plainEnv, [], []⟩

/-- The bytes of the second message are drained after the first command has run. -/
theorem burst_lost : ∃ u acts,
    runLoop true burst (setup (fun _ => ⟨true, [], [], .unset⟩)) = some (u,acts) ∧
    (sendAll [isConnectedMsg, isConnectedMsg]).map wire = some (arrivals burst) ∧
    ¬ Delivered [isConnectedMsg, isConnectedMsg] burst acts := by
  refine ⟨_, _, rfl, rfl, fun h => ?_⟩
  have hall := congrArg List.length (h.all [burst.head (by decide)] (List.replicate 5 _) rfl rfl
    (by decide))
  revert hall
  decide

end Esp
end DistributedPis
