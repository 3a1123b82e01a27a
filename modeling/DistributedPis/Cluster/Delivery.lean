import DistributedPis.Cluster.Uplink
import DistributedPis.Pi.Recovery

/-! From the Pis of the clients to the Pi of the server: every client's messages go over its own TCP
connection, the server's ESP relays the connections packet by packet in any order, and the Pi sorts
the packets by their senders. -/
namespace DistributedPis
open Library

/-- The Pi takes what its ESP has written 32 bytes at a time. -/
def sentPackets (bs : List UInt8) : List Packet :=
  (List.range (bs.length/32)).map fun i => Esp.packetOf ((bs.drop (32*i)).take 32)

section Packets
variable {p : Packet} {ps qs : List Packet} {part : List UInt8}

theorem sentPackets_cons (p : Packet) (bs : List UInt8) :
    sentPackets (p.bytes ++ bs) = p :: sentPackets bs := by
  have hlen : (p.bytes ++ bs).length/32 = bs.length/32+1 := by
    rw [List.length_append, Packet.bytes_length]
    omega
  rw [sentPackets, hlen, List.range_succ_eq_map, List.map_cons, List.map_map, sentPackets]
  refine List.cons_eq_cons.mpr ⟨?_, ?_⟩
  · rw [Nat.mul_zero, List.drop_zero, List.take_left' (by simp), Esp.packetOf_bytes]
  · refine List.map_congr_left fun i _ => ?_
    have hi : 32*(i+1) = p.bytes.length + 32*i := by
      rw [Packet.bytes_length]
      omega
    simp only [Function.comp_apply, Nat.succ_eq_add_one, hi, List.drop_length_add_append]

/-- A packet that has not come as a whole is not there yet. -/
theorem sentPackets_wire (hpart : part.length < 32) : sentPackets (wire ps ++ part) = ps := by
  induction ps with
  | nil => simp [sentPackets, Nat.div_eq_of_lt hpart]
  | cons p ps ih => rw [wire_cons, List.append_assoc, sentPackets_cons, ih]

theorem start_of_wire (h : wire ps <+: wire qs) : ps <+: qs := by
  obtain ⟨bs,hbs⟩ := h
  induction ps generalizing qs with
  | nil => exact ⟨qs, rfl⟩
  | cons p ps ih =>
    cases qs with
    | nil =>
      have hlen := congrArg List.length hbs
      simp at hlen
    | cons q qs =>
      rw [wire_cons, wire_cons, List.append_assoc] at hbs
      obtain ⟨hhead,htail⟩ := List.append_inj hbs (by simp)
      have hpq := congrArg Esp.packetOf hhead
      rw [Esp.packetOf_bytes, Esp.packetOf_bytes] at hpq
      rw [hpq]
      exact List.cons_prefix_cons.mpr ⟨rfl, ih htail⟩

end Packets

/-- What the Pi has been sent, once the last byte of a packet counts as the whole of it. -/
structure Lined (conns : ℕ → Conn) (es : List Event) (m : Machine) (log : List Sent)
    (part : List UInt8) : Prop where
  line : m.esp.toPi = wire (log.map Prod.snd) ++ part
  short : part.length < 32
  idle : m.pc.copied = 0 → part = []
  own : ∀ e ∈ log, e.1 = none → IsOwn e.2
  streams : ∀ c, arrived conns es c = wire (relayedFrom log c) ++
    (if m.esp.client = some c then part else []) ++ (m.esp.conns c).incoming

section Lines
variable {conns : ℕ → Conn} {es : List Event} {m : Machine} {log : List Sent}
  {part : List UInt8}

theorem lined_of_run (h : es.foldlM Machine.step (.start conns) = some m) :
    ∃ log part, Lined conns es m log part := by
  obtain ⟨log,part,hrel,hcopy⟩ : ∃ log part, Relayed conns es m log part ∧ m.Copying := by
    refine foldlM_history (P := fun es m => ∃ log part, Relayed conns es m log part ∧ m.Copying)
      ?_ ⟨[], [], relayed_start conns, nofun⟩ h
    rintro es e m m' ⟨log,part,hrel,hcopy⟩ hstep
    exact step_relayed hrel hcopy hstep
  obtain ⟨s,pc⟩ := m
  by_cases hshort : part.length < 32
  · exact ⟨log, part, hrel.line, hshort, hrel.idle, hrel.own, hrel.streams⟩
  · have hbegun := hrel.begun
    cases pc with
    | copy i k =>
      have hk : k = 32 := by
        have hle := (hcopy i k rfl).1
        simp only [Place.copied] at hbegun
        omega
      subst hk
      have hdone := hrel.complete (e := .go plainEnv [] []) (fun _ => rfl) rfl hcopy
      refine ⟨_, [], hdone.line, by simp, fun _ => rfl, hdone.own, fun c => ?_⟩
      rw [← hdone.streams c, arrived_concat]
      exact (List.append_nil _).symm
    | top => simp [Place.copied] at hbegun; simp [hbegun] at hshort
    | client i => simp [Place.copied] at hbegun; simp [hbegun] at hshort
    | relay i => simp [Place.copied] at hbegun; simp [hbegun] at hshort
    | rest => simp [Place.copied] at hbegun; simp [hbegun] at hshort

/-- What is relayed from a connection are packets of the messages on it. -/
theorem Lined.relayed_start (h : Lined conns es m log part) {c : ℕ} {ps : List Packet}
    (harr : arrived conns es c <+: wire ps) : relayedFrom log c <+: ps := by
  apply start_of_wire
  refine List.IsPrefix.trans ?_ harr
  rw [h.streams c, List.append_assoc]
  exact List.prefix_append ..

end Lines

namespace Receiver
variable {fromId : UInt8} {r : Receiver} {ms : List Msg} {m : Msg}

/-- Whole messages with data come out in order. -/
theorem run_messages (hms : ∀ m ∈ ms, Deliverable fromId m ∧ m.payload ≠ [])
    (hr : r.cur = .zero) :
    r.run (ms.flatMap Msg.pckts) = {r with queue := (ms.map Msg.stored).reverse ++ r.queue} := by
  induction ms generalizing r with
  | nil => rfl
  | cons m ms ih =>
    obtain ⟨hm,hdata⟩ := hms m (List.mem_cons_self ..)
    have hopen : r.cur.hasCmd = false := by rw [hr]; rfl
    rw [List.flatMap_cons, run_append, run_message hm hdata,
      ih (fun m' hm' => hms m' (List.mem_cons_of_mem _ hm')) rfl]
    simp only [hopen, Bool.false_eq_true, if_false, List.map_cons, List.reverse_cons,
      List.append_assoc, List.singleton_append]
    rw [hr]

/-- A part of a message is not in the queue yet. -/
theorem run_part (h : Deliverable fromId m) (hr : r.cur = .zero) {part : List Packet}
    (hpre : part <+: m.pckts) (hlt : part.length < m.pckts.length) :
    (r.run part).queue = r.queue := by
  cases part with
  | nil => rfl
  | cons p part =>
    rw [Msg.pckts_eq] at hpre hlt
    obtain ⟨rfl,hrest⟩ := List.cons_prefix_cons.mp hpre
    have hcmd : m.command.isLocal = false ∧ m.command.fd = fdOf fromId :=
      pckts_fd h _ (List.mem_cons_self ..)
    have hack : m.command.isAck = false := by
      simp [Packet.isAck, Msg.command, h.cmd.1, h.cmd.2]
    have hsize : m.command.size = m.payload.length := by
      rw [Msg.command, espCmndPckt_size, Nat.mod_eq_of_lt h.size]
    have hstep : r.step m.command = {r with cur := .opened m.payload.length} := by
      rw [step_command hcmd.1 (espCmndPckt_isCmd ..) hack, hr, MsgT.openCmd, hsize]
      rfl
    rw [run_cons, hstep]
    have hplain : ∀ q ∈ part, q.isLocal = false ∧ q.isCmd = false :=
      fun q hq => dataPckts_plain h q (hrest.subset hq)
    rcases run_data (r := {r with cur := .opened m.payload.length}) hplain with
      ⟨⟨-,k,hk,hcnt⟩,-⟩ | ⟨-,hqueue⟩
    · have hle := mul_pieces_lt 30 m.payload.length (by decide)
      have hsize := h.size
      have hcnt : (0+(k+1)) % 2^32 = npckts m.payload.length := hcnt
      simp only [List.length_cons, dataPckts_length] at hlt
      unfold npckts dataNbytes at hlt hcnt
      rw [Nat.mod_eq_of_lt (by omega)] at hcnt
      omega
    · exact hqueue

/-- Of the beginning of a row of messages, the whole ones are in the queue. -/
theorem run_start (hms : ∀ m ∈ ms, Deliverable fromId m ∧ m.payload ≠ []) {ps : List Packet}
    (hpre : ps <+: ms.flatMap Msg.pckts) : ∃ k ≤ ms.length,
    (init.run ps).queue = ((ms.take k).map Msg.stored).reverse ∧
      (ps = ms.flatMap Msg.pckts → k = ms.length) := by
  have hne : ∀ m ∈ ms, m.pckts ≠ [] := fun _ _ => List.cons_ne_nil _ _
  obtain ⟨k,rest,hk,rfl,hrest,hall⟩ := exists_take_of_prefix_flatMap hne hpre
  refine ⟨k, hk, ?_, hall⟩
  rw [run_append, run_messages (fun m hm => hms m (List.mem_of_mem_take hm)) rfl]
  rcases hrest with rfl | ⟨m,hm,hpart,hlt⟩
  · exact List.append_nil _
  · rw [run_part (hms m hm).1 rfl hpart hlt]
    exact List.append_nil _

end Receiver

/-- What the clients need of their ids: two clients with something to say have different ones, and
none is the server's or stands for the Pi itself. -/
structure Distinct (ids : ℕ → UInt8) (msgs : ℕ → List Msg) : Prop where
  apart : ∀ c c', msgs c ≠ [] → msgs c' ≠ [] → (ids c).toNat % 16 = (ids c').toNat % 16 → c = c'
  reserved : ∀ c, msgs c ≠ [] → (ids c).toNat % 16 ≠ 1

/-- A packet of the server's ESP itself. -/
theorem isOwn_fd {p : Packet} (h : IsOwn p) : p.fd = 16 ∨ p.fd = 1 := by
  rcases h with ⟨d,rfl⟩ | hmem
  · left
    have hlocal : (Esp.msgPi d).isLocal = true := by
      simp [Packet.isLocal, Esp.msgPi, selfId]
    simp [Packet.fd, hlocal]
  · right
    simp only [Esp.connectedListPckts, List.mem_cons, List.not_mem_nil, or_false] at hmem
    rcases hmem with rfl | rfl <;> decide

/-- What a client has written to its connection after some run of its sketch, in which its Pi has
been sending `msgs`. -/
def Uplinked (msgs : List Msg) (written : List UInt8) : Prop :=
  ∃ (s u : Esp) (c : ℕ) (q : Packet) (ts : List Esp.Tick) (acts : List Esp.Act),
    s.Linked c ∧ s.fromPi = idleBuff q ∧ s.mySerial = [] ∧ (s.conns c).written = [] ∧
    Esp.arrivals ts <+: wire (msgs.flatMap Msg.pckts) ∧ Esp.AllUndisturbed false ts s ∧
    Esp.runLoop false ts s = some (u,acts) ∧ written = (u.conns c).written

theorem Uplinked.prefix_wire {msgs : List Msg} {written : List UInt8} (h : Uplinked msgs written)
    (hms : ∀ m ∈ msgs, Esp.Transferable m) : written <+: wire (msgs.flatMap Msg.pckts) := by
  obtain ⟨s,u,c,q,ts,acts,hlinked,hidle,hserial,hempty,harr,hok,hrun,rfl⟩ := h
  obtain ⟨u',acts',hrun',⟨k,-,hwritten⟩,-⟩ :=
    Esp.uplink_written hlinked hidle hserial hms harr hok
  obtain ⟨rfl,-⟩ := Prod.mk.inj (Option.some.inj (hrun.symm.trans hrun'))
  rw [hwritten, hempty, List.nil_append]
  have hsplit : msgs.flatMap Msg.pckts =
      (msgs.take k).flatMap Msg.pckts ++ (msgs.drop k).flatMap Msg.pckts := by
    rw [← List.flatMap_append, List.take_append_drop]
  rw [hsplit, wire, wire, List.flatMap_append]
  exact List.prefix_append ..

section Sorting
variable {conns : ℕ → Conn} {es : List Event} {m : Machine} {log : List Sent}
  {part : List UInt8} {ids : ℕ → UInt8} {msgs : ℕ → List Msg} {c : ℕ}

/-- The Pi's entry for a client gets the packets that were relayed from it, and no others. -/
theorem filter_fd_eq (hlined : Lined conns es m log part) (hids : Distinct ids msgs)
    (hms : ∀ c, ∀ m ∈ msgs c, Deliverable (ids c) m) (hc : msgs c ≠ [])
    (harr : ∀ c, arrived conns es c <+: wire ((msgs c).flatMap Msg.pckts)) :
    ((log.map Prod.snd).filter fun p => p.fd = fdOf (ids c)) = relayedFrom log c := by
  rw [relayedFrom, List.filter_map]
  refine congrArg (List.map Prod.snd) (List.filter_congr fun e he => ?_)
  rw [Function.comp_apply, decide_eq_decide]
  obtain ⟨o,p⟩ := e
  cases o with
  | none =>
    have hreserved := hids.reserved c hc
    have hlt := Nat.mod_lt (ids c).toNat (show 0 < 16 by decide)
    refine iff_of_false (fun hfd => ?_) (fun hsome => by cases hsome)
    rcases isOwn_fd (hlined.own _ he rfl) with hown | hown
    · have hval := congrArg Fin.val (hown.symm.trans hfd)
      simp only [fdOf] at hval
      change 16 = (ids c).toNat % 16 at hval
      omega
    · have hval := congrArg Fin.val (hown.symm.trans hfd)
      exact hreserved hval.symm
  | some d =>
    have hmem : p ∈ relayedFrom log d :=
      List.mem_map.mpr ⟨_, List.mem_filter.mpr ⟨he, by simp⟩, rfl⟩
    obtain ⟨m',hm',hp⟩ := List.mem_flatMap.mp ((hlined.relayed_start (harr d)).subset hmem)
    have hfd := (pckts_fd (hms d m' hm') p hp).2
    constructor
    · intro heq
      have hval := congrArg Fin.val (hfd.symm.trans heq)
      exact congrArg some (hids.apart d c (List.ne_nil_of_mem hm') hc hval)
    · rintro ⟨⟩
      exact hfd

end Sorting

/-- A byte for the server, from the client with id 2. -/
def byteMsg : Msg := ⟨fun _ => 0, espSendData, 1, 2, [7]⟩

def byteMsgs (c : ℕ) : List Msg := if c = 0 then [byteMsg] else []

def byteIds (_ : ℕ) : UInt8 := 2

def clientConns (_ : ℕ) : Conn := ⟨true, [], [], ⟨192,168,4,2⟩⟩

/-- The message arrives from the Pi, and is collected and relayed. -/
def byteTicks : List Esp.Tick :=
  [⟨plainEnv, wire byteMsg.pckts, []⟩, ⟨plainEnv, [], []⟩, ⟨plainEnv, [], []⟩]

theorem byte_uplinked (c : ℕ) : Uplinked (byteMsgs c) (if c = 0 then wire byteMsg.pckts else []) := by
  by_cases hc : c = 0
  · rw [byteMsgs, if_pos hc, if_pos hc]
    refine ⟨{Esp.setup clientConns with client := some 0}, _, 0, _, byteTicks, _,
      ⟨rfl, rfl, Nat.zero_le _⟩, rfl, rfl, rfl, ?_, ?_, rfl, rfl⟩
    · simp [byteTicks, Esp.arrivals]
    · refine ⟨⟨fun h => (by cases h), fun _ _ _ => rfl⟩, fun s h => ?_⟩
      cases h
      refine ⟨⟨fun h => (by cases h), fun _ _ _ => rfl⟩, fun s h => ?_⟩
      cases h
      exact ⟨⟨fun _ => rfl, fun _ _ _ => rfl⟩, fun _ _ => trivial⟩
  · rw [byteMsgs, if_neg hc, if_neg hc]
    exact ⟨{Esp.setup clientConns with client := some 0}, _, 0, _, [], [],
      ⟨rfl, rfl, Nat.zero_le _⟩, rfl, rfl, rfl, ⟨_, rfl⟩, trivial, rfl, rfl⟩

/-- The client is accepted, and its bytes come in two pieces. -/
def byteRun : List Event :=
  [.go { plainEnv with accept := some 0 } [] [], .arrive 0 ((wire byteMsg.pckts).take 40),
    .arrive 0 ((wire byteMsg.pckts).drop 40)] ++ List.replicate 90 (.go plainEnv [] [])

theorem byte_arrived (c : ℕ) :
    arrived clientConns byteRun c = if c = 0 then wire byteMsg.pckts else [] := by
  by_cases hc : c = 0
  · rw [if_pos hc, hc]
    rfl
  · simp [arrived, byteRun, clientConns, Event.bytes, hc, Ne.symm hc]

end DistributedPis
