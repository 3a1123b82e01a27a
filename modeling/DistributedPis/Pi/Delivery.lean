import DistributedPis.Pi.Receiver

/-! Delivery on the Pi: which of the messages of one sender end up in its queue. The packets of
a message that meets a fresh `msg_t` are reassembled; a message without data leaves `has_cmd`
set, and the next message is lost. -/
namespace DistributedPis
open Library

namespace MsgT
variable {toId fromId : UInt8} {bytes : List UInt8}

def storeAll (m : MsgT) (ps : List Packet) : MsgT := ps.foldl (fun m p => m.store p) m

@[simp] theorem storeAll_nil (m : MsgT) : m.storeAll [] = m := rfl
@[simp] theorem storeAll_cons (m : MsgT) (p : Packet) (ps : List Packet) :
    m.storeAll (p::ps) = (m.store p).storeAll ps := rfl

/-- The message right after its command packet. -/
def opened (n : ℕ) : MsgT := ⟨true, npckts n, 0, some (List.replicate (30*npckts n % 2^32) 0)⟩

/-- The message after `k` data packets, when its block has the size that was meant. -/
def partly (bytes : List UInt8) (k : ℕ) : MsgT :=
  ⟨true, npckts bytes.length, k, some (bytes.take (30*k) ++
    List.replicate (30*npckts bytes.length - (bytes.take (30*k)).length) 0)⟩

lemma opened_eq_partly (bytes : List UInt8) (h : 30*npckts bytes.length < 2^32) :
    opened bytes.length = partly bytes 0 := by
  simpa [opened, partly] using h

end MsgT

lemma chunk_packet_data (toId fromId : UInt8) (bytes : List UInt8) (k : ℕ) :
    (espPckt (chunk 30 bytes k).length toId fromId (chunk 30 bytes k)).data.take
      (espPckt (chunk 30 bytes k).length toId fromId (chunk 30 bytes k)).nbytes =
        chunk 30 bytes k := by
  have hl := chunk_length_le 30 bytes k
  rw [espPckt_nbytes, Nat.mod_eq_of_lt (by omega), espPckt_data _ _ _ _ hl]

/-- Copying the next piece behind the pieces that are already there. -/
lemma memcpy_chunk (bytes : List UInt8) (k : ℕ) (hk : k < npckts bytes.length) :
    memcpy (bytes.take (30*k) ++
        List.replicate (30*npckts bytes.length - (bytes.take (30*k)).length) 0)
      (30*k) (chunk 30 bytes k) =
    bytes.take (30*(k+1)) ++
      List.replicate (30*npckts bytes.length - (bytes.take (30*(k+1))).length) 0 := by
  have hlt : 30*k < bytes.length := (lt_pieces 30 _ _ (by decide)).mp hk
  have hmul : 30*(k+1) ≤ 30*npckts bytes.length := Nat.mul_le_mul_left 30 hk
  have htake : (bytes.take (30*k)).length = 30*k := by rw [List.length_take]; omega
  have hchunk : bytes.take (30*k) ++ chunk 30 bytes k = bytes.take (30*(k+1)) := by
    rw [chunk, Nat.mul_add, List.take_add]
  have hlen : (bytes.take (30*(k+1))).length = 30*k + (chunk 30 bytes k).length := by
    rw [← hchunk, List.length_append, htake]
  have hle := chunk_length_le 30 bytes k
  unfold memcpy
  rw [List.take_left' htake, hchunk, List.drop_append, htake, hlen, List.drop_replicate,
    List.drop_of_length_le (by omega), List.nil_append, List.take_of_length_le]
  · congr 2; omega
  · simp only [List.length_append, List.length_replicate, htake, hlen]; omega

namespace MsgT

lemma partly_store (toId fromId : UInt8) (bytes : List UInt8) (k : ℕ)
    (hk : k < npckts bytes.length) (hfit : 30*npckts bytes.length < 2^32) :
    (partly bytes k).store
      (espPckt (chunk 30 bytes k).length toId fromId (chunk 30 bytes k)) =
        partly bytes (k+1) := by
  have h30 : 30*k % 2^32 = 30*k := Nat.mod_eq_of_lt (by omega)
  have hsucc : (k+1) % 2^32 = k+1 := Nat.mod_eq_of_lt (by omega)
  simp only [store, partly, Option.map_some, h30, hsucc, chunk_packet_data, memcpy_chunk bytes k hk]

/-- All data packets of a message leave its bytes in the block, followed by zeros. -/
theorem storeAll_dataPckts (toId fromId : UInt8) (bytes : List UInt8)
    (hfit : 30*npckts bytes.length < 2^32) :
    (opened bytes.length).storeAll (dataPckts toId fromId bytes) =
      partly bytes (npckts bytes.length) := by
  have hk : ∀ k ≤ npckts bytes.length,
      (opened bytes.length).storeAll ((dataPckts toId fromId bytes).take k) = partly bytes k := by
    intro k
    induction k with
    | zero => intro _; exact opened_eq_partly bytes hfit
    | succ k ih =>
      intro hk
      have hget := getElem_dataPckts toId fromId bytes k (by rw [dataPckts_length]; exact hk)
      rw [List.take_succ_eq_append_getElem (by rw [dataPckts_length]; exact hk), hget, storeAll,
        List.foldl_append]
      have hpre := ih (Nat.le_of_succ_le hk)
      rw [storeAll] at hpre
      rw [hpre]
      exact partly_store toId fromId bytes k hk hfit
  have h := hk _ le_rfl
  rwa [← dataPckts_length toId fromId, List.take_length, dataPckts_length] at h

end MsgT

/-- A message for the queue of its sender: it is not a status, neither by its command nor by its
ids, and its size fits in the command packet. -/
structure Deliverable (fromId : UInt8) (m : Msg) : Prop where
  cmd : m.cmd ≠ espAck ∧ m.cmd ≠ espNoack
  fromId : m.fromId = fromId
  ids : ¬ (m.fromId.toNat % 16 = 15 ∧ m.toId.toNat % 16 = 15)
  size : m.payload.length < 2^32

/-- The entry of a sender. -/
def fdOf (fromId : UInt8) : Fin 17 :=
  ⟨fromId.toNat % 16, Nat.lt_trans (Nat.mod_lt _ (by decide)) (by decide)⟩

lemma isLocal_false {p : Packet} (h : ¬ (p.espFrom = 15 ∧ p.espTo = 15)) : p.isLocal = false := by
  simpa [Packet.isLocal] using h

lemma fd_eq_fdOf {fromId : UInt8} {p : Packet} (hl : p.isLocal = false)
    (h : p.espFrom = fromId.toNat % 16) : p.fd = fdOf fromId := by
  simp [Packet.fd, hl, fdOf, h]

theorem pckts_fd {fromId : UInt8} {m : Msg} (h : Deliverable fromId m) :
    ∀ p ∈ m.pckts, p.isLocal = false ∧ p.fd = fdOf fromId := by
  have hids := h.ids
  intro p hp
  rcases List.mem_cons.mp hp with rfl | hp
  · have hl : (espCmndPckt cmdNbytes m.toId m.fromId
        (checksum m.heap (dataPckts m.toId m.fromId m.payload)).toNat m.cmd
        m.payload.length).isLocal = false := isLocal_false (by simpa using hids)
    exact ⟨hl, fd_eq_fdOf hl (by rw [espCmndPckt_espFrom, h.fromId])⟩
  · have hd := isDataPckt_of_mem hp
    have hl : p.isLocal = false := isLocal_false (by rw [hd.espFrom, hd.espTo]; exact hids)
    exact ⟨hl, fd_eq_fdOf hl (by rw [hd.espFrom, h.fromId])⟩

namespace Receiver

/-- The entry is between two messages. -/
def Fresh (r : Receiver) : Prop := r.cur = .zero

/-- The last message had no data; its `msg_t` is still open. -/
def Stuck (r : Receiver) : Prop := r.cur = .opened 0

lemma step_command {r : Receiver} {p : Packet} (hl : p.isLocal = false) (hc : p.isCmd = true)
    (ha : p.isAck = false) : r.step p = {r with cur := r.cur.openCmd p} := by
  simp [step, hl, hc, ha]

/-- Data packets fill an open message; the last one moves it to the queue. -/
lemma run_stores {r : Receiver} {ps : List Packet} (hps : ∀ p ∈ ps, p.isLocal = false ∧
    p.isCmd = false) (hne : ps ≠ []) (hopen : r.cur.hasCmd = true)
    (hcnt : r.cur.curPckts + ps.length = r.cur.totPckts) (htot : r.cur.totPckts < 2^32) :
    r.run ps = {r with cur := .zero, queue := r.cur.storeAll ps :: r.queue} := by
  induction ps generalizing r with
  | nil => exact absurd rfl hne
  | cons p ps ih =>
    obtain ⟨hl,hc⟩ := hps p (List.mem_cons_self ..)
    rw [List.length_cons] at hcnt
    have hcur : (r.cur.store p).curPckts = r.cur.curPckts + 1 :=
      Nat.mod_eq_of_lt (by omega)
    have htp : (r.cur.store p).totPckts = r.cur.totPckts := rfl
    by_cases hps' : ps = []
    · subst hps'
      have hd : (r.cur.store p).curPckts = (r.cur.store p).totPckts := by
        rw [hcur, htp]; simpa using hcnt
      simp [step, hl, hc, hopen, hd]
    · have hlen := List.length_pos_iff.mpr hps'
      have hd : (r.cur.store p).curPckts ≠ (r.cur.store p).totPckts := by
        rw [hcur, htp]; omega
      have hstep : r.step p = {r with cur := r.cur.store p} := by
        simp [step, hl, hc, hopen, hd]
      rw [run_cons, hstep]
      exact ih (fun q hq => hps q (List.mem_cons_of_mem _ hq)) hps' hopen
        (by dsimp only; rw [hcur, htp]; omega) (by dsimp only; rwa [htp])

/-- Without an open message every data packet is dropped. -/
lemma run_rejects {r : Receiver} {ps : List Packet} (hps : ∀ p ∈ ps, p.isLocal = false ∧
    p.isCmd = false) (hr : r.Fresh) : r.run ps = r := by
  induction ps with
  | nil => rfl
  | cons p ps ih =>
    obtain ⟨hl,hc⟩ := hps p (List.mem_cons_self ..)
    have hstep : r.step p = r := by
      have hcur : r.cur = .zero := hr
      cases r
      subst hcur
      simp [step, hl, hc, MsgT.zero, MsgT.reject]
    rw [run_cons, hstep]
    exact ih (fun q hq => hps q (List.mem_cons_of_mem _ hq))

section Messages
variable {fromId : UInt8} {m : Msg} {r : Receiver}

lemma dataPckts_plain (h : Deliverable fromId m) :
    ∀ p ∈ dataPckts m.toId m.fromId m.payload, p.isLocal = false ∧ p.isCmd = false :=
  fun p hp => ⟨(pckts_fd h p (List.mem_cons_of_mem _ hp)).1, (isDataPckt_of_mem hp).isCmd⟩

/-- The command packet of a message. -/
lemma step_pckts (h : Deliverable fromId m) (r : Receiver) : r.run m.pckts =
    Receiver.run {r with cur := if r.cur.hasCmd then .zero else .opened m.payload.length}
      (dataPckts m.toId m.fromId m.payload) := by
  rw [Msg.pckts, cmdPckts, run_cons, step_command (pckts_fd h _ (List.mem_cons_self ..)).1
    (espCmndPckt_isCmd ..) (by simp [Packet.isAck, h.cmd.1, h.cmd.2]), MsgT.openCmd,
    espCmndPckt_size, Nat.mod_eq_of_lt h.size]
  rfl

/-- All data packets of a message with data complete it once it is open. -/
lemma run_whole (hps : ∀ p ∈ dataPckts m.toId m.fromId m.payload, p.isLocal = false ∧
    p.isCmd = false) (hsize : m.payload.length < 2^32) (hm : m.payload ≠ []) :
    Receiver.run {r with cur := .opened m.payload.length} (dataPckts m.toId m.fromId m.payload) =
      {r with
        cur := .zero
        queue := (MsgT.opened m.payload.length).storeAll (dataPckts m.toId m.fromId m.payload) ::
          r.queue} := by
  have hpos : 0 < npckts m.payload.length :=
    pieces_pos 30 _ (by decide) (List.length_pos_iff.mpr hm)
  have hle : 30*npckts m.payload.length < m.payload.length+30 := mul_pieces_lt 30 _ (by decide)
  have hdata : dataPckts m.toId m.fromId m.payload ≠ [] :=
    List.ne_nil_of_length_pos (by rwa [dataPckts_length])
  exact run_stores (r := {r with cur := .opened m.payload.length}) hps hdata rfl
    (by simp [MsgT.opened]) (show npckts m.payload.length < 2^32 by omega)

/-- A message with data that meets a fresh entry is queued. -/
theorem run_queued (h : Deliverable fromId m) (hr : r.Fresh) (hm : m.payload ≠ []) :
    r.run m.pckts = {r with
      queue := (MsgT.opened m.payload.length).storeAll (dataPckts m.toId m.fromId m.payload) ::
        r.queue} := by
  have hcur : r.cur = .zero := hr
  have hwhole := run_whole (r := r) (dataPckts_plain h) h.size hm
  rw [step_pckts h, hcur]
  refine hwhole.trans ?_
  rw [← hcur]

/-- A message without data leaves the entry open. -/
theorem run_opened (h : Deliverable fromId m) (hr : r.Fresh) (hm : m.payload = []) :
    r.run m.pckts = {r with cur := .opened 0} := by
  have hcur : r.cur = .zero := hr
  rw [step_pckts h, hcur, hm]
  rfl

/-- Whatever meets an open entry is lost and closes it. -/
theorem run_lost (h : Deliverable fromId m) (hr : r.Stuck) :
    r.run m.pckts = {r with cur := .zero} := by
  have hcur : r.cur = .opened 0 := hr
  rw [step_pckts h, hcur]
  exact run_rejects (dataPckts_plain h) rfl

end Messages
end Receiver

/-- The `msg_t` that a message with data turns into. -/
def Msg.stored (m : Msg) : MsgT :=
  (MsgT.opened m.payload.length).storeAll (dataPckts m.toId m.fromId m.payload)

/-- The messages that reach the queue of an entry, which is open or fresh at the start. -/
def accepted : Bool → List Msg → List Msg
  | _, [] => []
  | true, _::ms => accepted false ms
  | false, m::ms => if m.payload = [] then accepted true ms else m :: accepted false ms

theorem Receiver.run_accepted {fromId : UInt8} {ms : List Msg}
    (hms : ∀ m ∈ ms, Deliverable fromId m) (isOpen : Bool) {r : Receiver}
    (hr : r.cur = if isOpen then .opened 0 else .zero) :
    (r.run (ms.flatMap Msg.pckts)).queue =
      ((accepted isOpen ms).map Msg.stored).reverse ++ r.queue := by
  induction ms generalizing r isOpen with
  | nil => cases isOpen <;> simp [accepted]
  | cons m ms ih =>
    have hm := hms m (List.mem_cons_self ..)
    have hms' : ∀ m ∈ ms, Deliverable fromId m := fun m hm => hms m (List.mem_cons_of_mem _ hm)
    rw [List.flatMap_cons, run_append]
    cases isOpen with
    | true =>
      rw [run_lost hm hr, ih hms' false rfl]
      rfl
    | false =>
      by_cases he : m.payload = []
      · rw [run_opened hm hr he, ih hms' true rfl, accepted, if_pos he]
      · have hrest := ih hms' false
          (r := {r with queue := m.stored :: r.queue}) hr
        rw [run_queued hm hr he, accepted, if_neg he]
        exact hrest.trans (by simp)

/-- Every message without data is followed at once by another one, or ends the sequence. -/
def noLoss : List (List UInt8) → Bool
  | [] => true
  | [[]] => true
  | []::q::qs => q.isEmpty && noLoss qs
  | (_::_)::ps => noLoss ps

def withData (m : Msg) : Bool := !m.payload.isEmpty

@[simp] lemma withData_iff (m : Msg) : withData m = true ↔ m.payload ≠ [] := by simp [withData]

lemma accepted_sublist (isOpen : Bool) (ms : List Msg) :
    (accepted isOpen ms).Sublist (ms.filter withData) := by
  induction ms generalizing isOpen with
  | nil => cases isOpen <;> simp [accepted]
  | cons m ms ih =>
    cases isOpen with
    | true => exact (ih false).trans ((List.sublist_cons_self m ms).filter _)
    | false =>
      by_cases he : m.payload = []
      · simpa [accepted, he] using ih true
      · simpa [accepted, he] using ih false

/-- Nothing is lost exactly when messages without data come in pairs. -/
theorem accepted_eq_iff (ms : List Msg) :
    accepted false ms = ms.filter withData ↔ noLoss (ms.map Msg.payload) = true := by
  induction h : ms.length using Nat.strongRecOn generalizing ms with
  | ind n ih =>
    match ms with
    | [] => simp [accepted, noLoss]
    | m::ms =>
      by_cases he : m.payload = []
      · match ms with
        | [] => simp [accepted, noLoss, he]
        | q::qs =>
          by_cases hq : q.payload = []
          · simpa [accepted, noLoss, he, hq] using ih qs.length (by simp at h; omega) qs rfl
          · -- one message fewer is left than there are messages with data
            have hle := (accepted_sublist false qs).length_le
            have hne : accepted false qs ≠ q::qs.filter withData := by
              intro hc
              rw [hc, List.length_cons] at hle
              omega
            simp [accepted, noLoss, he, hq, hne]
      · obtain ⟨b,bs,hb⟩ := List.exists_cons_of_ne_nil he
        simpa [accepted, noLoss, hb] using ih ms.length (by simp at h; omega) ms rfl

/-- A reassembled message has the right packet count, and its block starts with the payload. -/
def Carries (m : MsgT) (payload : List UInt8) : Prop :=
  m.totPckts = npckts payload.length ∧ ∃ d, m.data = some d ∧ d.take payload.length = payload

/-- Where `30*totPckts` fits in 32 bits, the block has the right size. -/
theorem stored_carries {m : Msg} (hfit : 30*npckts m.payload.length < 2^32) :
    Carries m.stored m.payload := by
  have hle : m.payload.length ≤ 30*npckts m.payload.length := le_mul_pieces 30 _ (by decide)
  rw [Msg.stored, MsgT.storeAll_dataPckts _ _ _ hfit]
  refine ⟨rfl, _, rfl, ?_⟩
  rw [List.take_of_length_le hle, List.take_left]

lemma stored_carries_of_le {m : Msg} (h : m.payload.length ≤ maxPayload) :
    Carries m.stored m.payload := by
  have hfit := (npckts_lt_iff _).mpr h
  exact stored_carries (by omega)

/-- The queue of entry `i` holds one message for every payload that is not empty, the first one
pushed at the far end. -/
def Delivered (t : FileTable) (i : Fin 17) (payloads : List (List UInt8)) : Prop :=
  ∃ ids, IsQueue t.next (t.fds i).msgQ ids ∧
    List.Forall₂ Carries (ids.reverse.map t.msgs) (payloads.filter (fun p => !p.isEmpty))

/-- From the initial table on, the queue holds what is accepted. -/
theorem receive_accepted {fromId : UInt8} {ms : List Msg}
    (hms : ∀ m ∈ ms, Deliverable fromId m) : ∃ ids,
    let t := FileTable.init.receive (ms.flatMap Msg.pckts)
    IsQueue t.next (t.fds (fdOf fromId)).msgQ ids ∧
      ids.reverse.map t.msgs = (accepted false ms).map Msg.stored := by
  obtain ⟨_,ids,hrep⟩ := receive_refines (ms.flatMap Msg.pckts) init_represents
  have hall : (ms.flatMap Msg.pckts).filter (fun p => p.fd = fdOf fromId) =
      ms.flatMap Msg.pckts := by
    refine List.filter_eq_self.mpr (fun p hp => ?_)
    obtain ⟨m,hm,hp⟩ := List.mem_flatMap.mp hp
    simpa using (pckts_fd (hms m hm) p hp).2
  have hentry := hrep (fdOf fromId)
  dsimp only at hentry
  rw [hall] at hentry
  refine ⟨ids (fdOf fromId), hentry.queue, ?_⟩
  have hrun := Receiver.run_accepted hms false (r := .init) rfl
  rw [List.map_reverse, hentry.msgs, hrun]
  simp [Receiver.init]

lemma carries_all {ms : List Msg} (hms : ∀ m ∈ ms, m.payload.length ≤ maxPayload) :
    List.Forall₂ Carries (ms.map Msg.stored) (ms.map Msg.payload) := by
  rw [List.forall₂_map_left_iff, List.forall₂_map_right_iff, List.forall₂_same]
  exact fun m hm => stored_carries_of_le (hms m hm)

/-- What is accepted is delivered, so everything is if nothing follows an unpaired message without
data. -/
lemma delivered_iff {fromId : UInt8} {ms : List Msg} (hms : ∀ m ∈ ms, Deliverable fromId m)
    (hsize : ∀ m ∈ ms, m.payload.length ≤ maxPayload) :
    Delivered (FileTable.init.receive (ms.flatMap Msg.pckts)) (fdOf fromId)
        (ms.map Msg.payload) ↔ noLoss (ms.map Msg.payload) = true := by
  obtain ⟨ids,hqueue,hids⟩ := receive_accepted hms
  have hfilter : (ms.map Msg.payload).filter (fun p => !p.isEmpty) =
      (ms.filter withData).map Msg.payload := List.filter_map
  rw [← accepted_eq_iff, Delivered, hfilter]
  constructor
  · rintro ⟨ids',hqueue',hall⟩
    obtain rfl := hqueue'.unique hqueue
    rw [hids] at hall
    have hlen := hall.length_eq
    rw [List.length_map, List.length_map] at hlen
    exact (accepted_sublist false ms).eq_of_length hlen
  · intro heq
    rw [heq] at hids
    exact ⟨ids, hqueue, hids ▸ carries_all fun m hm => hsize m (List.mem_filter.mp hm).1⟩

/-- The messages are sent and delivered without loss exactly if no message follows an unpaired
message without data, and the packets of each payload fit in the block of `send_cmd`. -/
theorem receive_delivers_iff {fromId : UInt8} {ms : List Msg}
    (hms : ∀ m ∈ ms, Deliverable fromId m) :
    (∃ pckts, sendAll ms = some pckts ∧
      Delivered (FileTable.init.receive pckts) (fdOf fromId) (ms.map Msg.payload)) ↔
      noLoss (ms.map Msg.payload) = true ∧ ∀ m ∈ ms, m.payload.length ≤ maxPayload := by
  constructor
  · rintro ⟨pckts,hsend,hdel⟩
    obtain ⟨hsize,rfl⟩ := (sendAll_eq_some_iff ms pckts).mp hsend
    exact ⟨(delivered_iff hms hsize).mp hdel, hsize⟩
  · rintro ⟨hloss,hsize⟩
    exact ⟨_, (sendAll_eq_some_iff ms _).mpr ⟨hsize,rfl⟩, (delivered_iff hms hsize).mpr hloss⟩

/-- A message to node 2 from node 1. -/
def fromOne (payload : List UInt8) : Msg := ⟨fun _ => 0, espSendData, 2, 1, payload⟩

lemma fromOne_deliverable {ps : List (List UInt8)} (h : ∀ p ∈ ps, p.length < 2^32) :
    ∀ m ∈ ps.map fromOne, Deliverable 1 m := by
  intro m hm
  obtain ⟨p,hp,rfl⟩ := List.mem_map.mp hm
  exact ⟨by simp [fromOne, espSendData, espAck, espNoack], rfl, by simp [fromOne], h p hp⟩

theorem receive_delivers_iff_four :
    ∃ pckts, sendAll ([[7],[],[],List.replicate 60 1].map fromOne) = some pckts ∧
      Delivered (FileTable.init.receive pckts) (fdOf 1)
        (([[7],[],[],List.replicate 60 1].map fromOne).map Msg.payload) :=
  (receive_delivers_iff (fromOne_deliverable (by decide))).mpr (by decide)

/-- A message without data and then one byte: nothing arrives. -/
theorem after_empty_lost :
    ∃ pckts, sendAll ([[],[7]].map fromOne) = some pckts ∧
      ¬ Delivered (FileTable.init.receive pckts) (fdOf 1)
        (([[],[7]].map fromOne).map Msg.payload) := by
  have hd : ∀ m ∈ [[],[7]].map fromOne, Deliverable 1 m := fromOne_deliverable (by decide)
  have hsize : ∀ m ∈ [[],[7]].map fromOne, m.payload.length ≤ maxPayload := by decide
  refine ⟨_, (sendAll_eq_some_iff ..).mpr ⟨hsize,rfl⟩, fun hdel => ?_⟩
  have hloss := (delivered_iff hd hsize).mp hdel
  revert hloss
  decide

end DistributedPis
