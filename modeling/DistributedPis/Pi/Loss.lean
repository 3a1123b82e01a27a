import DistributedPis.Library.Run
import DistributedPis.Pi.Delivery

/-! Packet loss on the way to the Pi. A message of which packets are missing stays open in its
entry, and nothing ties the data packets that come next to its command packet: `run chksm` is
still to do in `fds.c`. -/
namespace DistributedPis
open Library

/-- A message of a sender, and those of its packets that arrive. -/
structure Arrived (fromId : UInt8) where
  msg : Msg
  sent : msg.send = some msg.pckts
  got : List Packet
  sublist : got.Sublist msg.pckts
  sender : msg.fromId = fromId

namespace MsgT

/-- One of the next `n` data packets completes the message. -/
def Completes (m : MsgT) (n : ℕ) : Prop :=
  m.hasCmd = true ∧ ∃ k < n, (m.curPckts + (k+1)) % 2^32 = m.totPckts

instance (m : MsgT) (n : ℕ) : Decidable (m.Completes n) := inferInstanceAs (Decidable (_ ∧ _))

lemma completes_zero (m : MsgT) : ¬m.Completes 0 := by simp [Completes]

lemma completes_succ {m : MsgT} (hm : m.hasCmd = true) (p : Packet) (n : ℕ) :
    m.Completes (n+1) ↔ (m.store p).curPckts = (m.store p).totPckts ∨ (m.store p).Completes n := by
  have hshift : ∀ k, ((m.curPckts + 1) % 2^32 + (k+1)) % 2^32 = (m.curPckts + (k+1+1)) % 2^32 := by
    intro k
    rw [Nat.mod_add_mod, Nat.add_assoc, Nat.add_comm 1]
  simp only [Completes, store, hm, true_and, hshift, Nat.exists_lt_succ_left, Nat.zero_add]

end MsgT

namespace Arrived
variable {fromId : UInt8}

/-- The packets that reach the entry of the sender. -/
def own (x : Arrived fromId) : List Packet := x.got.filter fun p => !p.isLocal

/-- The command packet is one of them, and it is not a status. -/
def opens (x : Arrived fromId) : Bool := x.own.any fun p => p.isCmd && !p.isAck

def ndata (x : Arrived fromId) : ℕ := x.own.countP fun p => !p.isCmd

/-- Packets without their command packet do not complete the message `m` that is open in the
entry. -/
def Safe (x : Arrived fromId) (m : MsgT) : Prop := x.opens = false → ¬m.Completes x.ndata

instance (x : Arrived fromId) (m : MsgT) : Decidable (x.Safe m) :=
  inferInstanceAs (Decidable (_ → _))

lemma le_maxPayload (x : Arrived fromId) : x.msg.payload.length ≤ maxPayload :=
  ((x.msg.send_eq_some_iff _).mp x.sent).1

lemma size_lt (x : Arrived fromId) : x.msg.payload.length < 2^32 :=
  x.le_maxPayload.trans_lt (by decide)

end Arrived

namespace FileTable

/-- The messages that wait in entry `i`, the last one first. -/
def Queued (t : FileTable) (i : Fin 17) (ms : List MsgT) : Prop :=
  ∃ ids, IsQueue t.next (t.fds i).msgQ ids ∧ ids.map t.msgs = ms

lemma Queued.unique {t : FileTable} {i : Fin 17} {ms ms' : List MsgT} (h : t.Queued i ms)
    (h' : t.Queued i ms') : ms = ms' := by
  obtain ⟨ids,hq,rfl⟩ := h
  obtain ⟨ids',hq',rfl⟩ := h'
  rw [hq.unique hq']

/-- The message that entry `i` is working on. -/
def cur (t : FileTable) (i : Fin 17) : MsgT := t.msgs (t.fds i).curMsg

def arrive {fromId : UInt8} (t : FileTable) (x : Arrived fromId) : Option FileTable :=
  some (t.receive x.got)

end FileTable

section Runs
variable {fromId : UInt8}

/-- The table after the packets of some messages. -/
def arrivedAll (xs : List (Arrived fromId)) : FileTable :=
  FileTable.init.receive (xs.flatMap Arrived.got)

/-- What is pushed while the packets of `x` come in is the message of `x`: all of its packets
have come, no earlier packet is in it, and it has their number and their data. -/
def PushesOwn (t : FileTable) (x : Arrived fromId) : Prop :=
  ∃ ms ms', t.Queued (fdOf fromId) ms ∧ (t.receive x.got).Queued (fdOf fromId) ms' ∧
    (ms' = ms ∨ ∃ m, ms' = m::ms ∧ x.got = x.msg.pckts ∧ (t.cur (fdOf fromId)).hasCmd = false ∧
      Carries m x.msg.payload)

/-- No packets of two messages are put together, and only messages that were sent come out. -/
def NoSplice (xs : List (Arrived fromId)) : Prop :=
  ∀ ys x zs, xs = ys ++ x::zs → PushesOwn (arrivedAll ys) x

end Runs

namespace Receiver

lemma run_rejected {r : Receiver} {ps : List Packet} (hps : ∀ p ∈ ps, p.isLocal = false ∧
    p.isCmd = false) (hr : r.cur.hasCmd = false) : (r.run ps).queue = r.queue := by
  induction ps generalizing r with
  | nil => rfl
  | cons p ps ih =>
    obtain ⟨hl,hc⟩ := hps p (List.mem_cons_self ..)
    have hstep : r.step p = {r with cur := r.cur.reject} := by simp [step, hl, hc, hr]
    rw [run_cons, hstep]
    exact ih (fun q hq => hps q (List.mem_cons_of_mem _ hq)) hr

/-- Data packets push a message exactly when they complete the open one, and never two. -/
theorem run_data {r : Receiver} {ps : List Packet} (hps : ∀ p ∈ ps, p.isLocal = false ∧
    p.isCmd = false) :
    r.cur.Completes ps.length ∧ (∃ m, (r.run ps).queue = m::r.queue) ∨
      ¬r.cur.Completes ps.length ∧ (r.run ps).queue = r.queue := by
  induction ps generalizing r with
  | nil => exact .inr ⟨MsgT.completes_zero _, rfl⟩
  | cons p ps ih =>
    obtain ⟨hl,hc⟩ := hps p (List.mem_cons_self ..)
    have hrest : ∀ q ∈ ps, q.isLocal = false ∧ q.isCmd = false :=
      fun q hq => hps q (List.mem_cons_of_mem _ hq)
    by_cases hm : r.cur.hasCmd = true
    · rw [List.length_cons, MsgT.completes_succ hm p]
      by_cases hd : (r.cur.store p).curPckts = (r.cur.store p).totPckts
      · have hstep : r.step p = {r with cur := .zero, queue := r.cur.store p :: r.queue} := by
          simp [step, hl, hc, hm, hd]
        rw [run_cons, hstep]
        exact .inl ⟨.inl hd, _, run_rejected hrest rfl⟩
      · have hstep : r.step p = {r with cur := r.cur.store p} := by simp [step, hl, hc, hm, hd]
        rw [run_cons, hstep, or_iff_right hd]
        exact ih (r := {r with cur := r.cur.store p}) hrest
    · exact .inr ⟨fun h => hm h.1, run_rejected hps (Bool.eq_false_iff.mpr hm)⟩

end Receiver

namespace Msg

/-- The packet that announces a message. -/
def command (m : Msg) : Packet :=
  espCmndPckt cmdNbytes m.toId m.fromId
    (checksum m.heap (dataPckts m.toId m.fromId m.payload)).toNat m.cmd m.payload.length

lemma pckts_eq (m : Msg) : m.pckts = m.command :: dataPckts m.toId m.fromId m.payload := rfl

lemma ids_of_mem {m : Msg} {p : Packet} (hp : p ∈ m.pckts) :
    p.espFrom = m.fromId.toNat % 16 ∧ p.espTo = m.toId.toNat % 16 := by
  rcases List.mem_cons.mp hp with rfl | hp
  · exact ⟨espCmndPckt_espFrom .., espCmndPckt_espTo ..⟩
  · exact ⟨(isDataPckt_of_mem hp).espFrom, (isDataPckt_of_mem hp).espTo⟩

/-- All packets of a message are for its sender's entry, or all are for the local one. -/
lemma isLocal_of_mem {m : Msg} {p : Packet} (hp : p ∈ m.pckts) :
    p.isLocal = m.command.isLocal := by
  obtain ⟨hfrom,hto⟩ := ids_of_mem hp
  obtain ⟨hfrom',hto'⟩ : m.command.espFrom = m.fromId.toNat % 16 ∧
    m.command.espTo = m.toId.toNat % 16 := ids_of_mem (List.mem_cons_self ..)
  rw [Packet.isLocal, Packet.isLocal, hfrom, hto, hfrom', hto']

end Msg

namespace Arrived
variable {fromId : UInt8} (x : Arrived fromId)

lemma filter_fd : x.got.filter (fun p => p.fd = fdOf fromId) = x.own := by
  refine List.filter_congr (fun p hp => ?_)
  cases hl : p.isLocal
  · have hfrom := (Msg.ids_of_mem (x.sublist.subset hp)).1
    simp [fd_eq_fdOf hl (x.sender ▸ hfrom)]
  · have hlt : fromId.toNat % 16 < 16 := Nat.mod_lt _ (by decide)
    have hne : (16 : Fin 17) ≠ fdOf fromId := fun h => by
      have := congrArg Fin.val h
      simp only [fdOf] at this
      omega
    simp [Packet.fd, hl, hne]

lemma own_local (h : x.msg.command.isLocal = true) : x.own = [] := by
  refine List.filter_eq_nil_iff.mpr (fun p hp => ?_)
  simp [Msg.isLocal_of_mem (x.sublist.subset hp), h]

lemma own_remote (h : x.msg.command.isLocal = false) : x.own = x.got := by
  refine List.filter_eq_self.mpr (fun p hp => ?_)
  simp [Msg.isLocal_of_mem (x.sublist.subset hp), h]

/-- The data packets of a message that is not for the local entry. -/
lemma plain_of_sublist (h : x.msg.command.isLocal = false) {ds : List Packet}
    (hds : ds.Sublist (dataPckts x.msg.toId x.msg.fromId x.msg.payload)) :
    ∀ p ∈ ds, p.isLocal = false ∧ p.isCmd = false := by
  intro p hp
  have hmem : p ∈ x.msg.pckts := List.mem_cons_of_mem _ (hds.subset hp)
  exact ⟨(Msg.isLocal_of_mem hmem).trans h, (isDataPckt_of_mem (hds.subset hp)).isCmd⟩

end Arrived

/-- Whether the packets of `x` push nothing, or the message of `x` and nothing else. -/
def Receiver.PushesOwn {fromId : UInt8} (r : Receiver) (x : Arrived fromId) : Prop :=
  (r.run x.own).queue = r.queue ∨ ∃ m, (r.run x.own).queue = m::r.queue ∧
    x.got = x.msg.pckts ∧ r.cur.hasCmd = false ∧ Carries m x.msg.payload

section Cases
variable {fromId : UInt8} {x : Arrived fromId} {r : Receiver} {ds : List Packet}

/-- Data packets that no command packet has opened an entry for. -/
lemma pushesOwn_headless (r' : Receiver) (hopens : x.opens = false) (hn : x.ndata = ds.length)
    (hds : ∀ p ∈ ds, p.isLocal = false ∧ p.isCmd = false)
    (hcur : r'.cur = r.cur) (hqueue : r'.queue = r.queue) (hrun : r.run x.own = r'.run ds) :
    r.PushesOwn x ↔ x.Safe r.cur := by
  have hsafe : x.Safe r.cur ↔ ¬r.cur.Completes ds.length := by simp [Arrived.Safe, hopens, hn]
  have hdata := Receiver.run_data (r := r') hds
  rw [hcur, hqueue] at hdata
  rw [hsafe, Receiver.PushesOwn, hrun]
  rcases hdata with ⟨hc,m,hm⟩ | ⟨hc,hm⟩
  · refine iff_of_false ?_ (not_not_intro hc)
    rintro (h | ⟨_,_,_,h,_⟩)
    · exact absurd (hm.symm.trans h) (List.cons_ne_self _ _)
    · exact Bool.false_ne_true (h.symm.trans hc.1)
  · exact iff_of_true (.inl hm) hc

/-- From the command packet on, only all of the data packets complete the message. -/
lemma completes_opened_iff (hsize : x.msg.payload.length < 2^32)
    (hds : ds.Sublist (dataPckts x.msg.toId x.msg.fromId x.msg.payload)) :
    (MsgT.opened x.msg.payload.length).Completes ds.length ↔
      ds = dataPckts x.msg.toId x.msg.fromId x.msg.payload ∧ x.msg.payload ≠ [] := by
  have hle : 30*npckts x.msg.payload.length < x.msg.payload.length+30 :=
    mul_pieces_lt 30 _ (by decide)
  have hlen := hds.length_le
  rw [dataPckts_length] at hlen
  constructor
  · rintro ⟨-,k,hk,hcnt⟩
    have hcnt : (0+(k+1)) % 2^32 = npckts x.msg.payload.length := hcnt
    rw [Nat.zero_add, Nat.mod_eq_of_lt (by omega)] at hcnt
    refine ⟨hds.eq_of_length (by rw [dataPckts_length]; omega), fun he => ?_⟩
    simp [he, npckts] at hcnt
  · rintro ⟨rfl,hne⟩
    have hpos : 0 < npckts x.msg.payload.length :=
      pieces_pos 30 _ (by decide) (List.length_pos_iff.mpr hne)
    rw [dataPckts_length]
    refine ⟨rfl, npckts x.msg.payload.length - 1, by omega, ?_⟩
    change (0+(npckts x.msg.payload.length - 1 + 1)) % 2^32 = npckts x.msg.payload.length
    rw [Nat.zero_add, Nat.sub_add_cancel hpos, Nat.mod_eq_of_lt (by omega)]

/-- The command packet arrives at an entry without an open message. -/
lemma pushesOwn_opened (hopens : x.opens = true)
    (hds : ds.Sublist (dataPckts x.msg.toId x.msg.fromId x.msg.payload))
    (hl : x.msg.command.isLocal = false) (hgot : x.got = x.msg.command::ds)
    (hr : r.cur.hasCmd = false)
    (hrun : r.run x.own = Receiver.run {r with cur := .opened x.msg.payload.length} ds) :
    r.PushesOwn x ↔ x.Safe r.cur := by
  have hplain := x.plain_of_sublist hl hds
  have hwhole : x.got = x.msg.pckts ↔ ds = dataPckts x.msg.toId x.msg.fromId x.msg.payload := by
    rw [hgot, Msg.pckts_eq, List.cons_inj_right]
  have hsafe : x.Safe r.cur := fun h => absurd (hopens.symm.trans h) (by decide)
  have hcomp := completes_opened_iff x.size_lt hds
  refine iff_of_true ?_ hsafe
  rw [Receiver.PushesOwn, hrun]
  by_cases hc : (MsgT.opened x.msg.payload.length).Completes ds.length
  · obtain ⟨rfl,hne⟩ := hcomp.mp hc
    rw [Receiver.run_whole (r := r) hplain x.size_lt hne]
    exact .inr ⟨_, rfl, hwhole.mpr rfl, hr, stored_carries_of_le x.le_maxPayload⟩
  · rcases Receiver.run_data (r := {r with cur := .opened x.msg.payload.length}) hplain with h | h
    · exact absurd h.1 hc
    · exact .inl h.2

section Arrivals
variable (hl : x.msg.command.isLocal = false)
  (hds : ds.Sublist (dataPckts x.msg.toId x.msg.fromId x.msg.payload))
include hl hds

lemma any_command : ds.any (fun p => p.isCmd && !p.isAck) = false := by
  rw [List.any_eq_false]
  exact fun p hp => by simp [(x.plain_of_sublist hl hds p hp).2]

lemma countP_data : ds.countP (fun p => !p.isCmd) = ds.length := by
  rw [List.countP_eq_length]
  exact fun p hp => by simp [(x.plain_of_sublist hl hds p hp).2]

/-- The command packet is lost. -/
lemma pushesOwn_lost (hgot : x.got = ds) : r.PushesOwn x ↔ x.Safe r.cur := by
  subst hgot
  have hown := x.own_remote hl
  refine pushesOwn_headless r ?_ ?_ (x.plain_of_sublist hl hds) rfl rfl (by rw [hown])
  · rw [Arrived.opens, hown, any_command hl hds]
  · rw [Arrived.ndata, hown, countP_data hl hds]

/-- The command packet is a status. -/
lemma pushesOwn_status (hgot : x.got = x.msg.command::ds) (ha : x.msg.command.isAck = true) :
    r.PushesOwn x ↔ x.Safe r.cur := by
  have hown := x.own_remote hl
  have hcmd : x.msg.command.isCmd = true := espCmndPckt_isCmd ..
  refine pushesOwn_headless (r.step x.msg.command) ?_ ?_ (x.plain_of_sublist hl hds) ?_ ?_
    (by rw [hown, hgot, Receiver.run_cons])
  · rw [Arrived.opens, hown, hgot, List.any_cons, ha, any_command hl hds]
    simp
  · rw [Arrived.ndata, hown, hgot, List.countP_cons_of_neg (by simp [hcmd]), countP_data hl hds]
  · simp [Receiver.step, hl, hcmd, ha]
  · simp [Receiver.step, hl, hcmd, ha]

/-- The command packet arrives; it opens the entry, or closes it if a message is open. -/
lemma pushesOwn_command (hgot : x.got = x.msg.command::ds) (ha : x.msg.command.isAck = false) :
    r.PushesOwn x ↔ x.Safe r.cur := by
  have hown := x.own_remote hl
  have hcmd : x.msg.command.isCmd = true := espCmndPckt_isCmd ..
  have hopens : x.opens = true := by
    rw [Arrived.opens, hown, hgot, List.any_cons, hcmd, ha]
    rfl
  have hrun : r.run x.own = Receiver.run {r with cur := r.cur.openCmd x.msg.command} ds := by
    rw [hown, hgot, Receiver.run_cons, Receiver.step_command hl hcmd ha]
  have hsize : x.msg.command.size = x.msg.payload.length :=
    (espCmndPckt_size ..).trans (Nat.mod_eq_of_lt x.size_lt)
  cases hr : r.cur.hasCmd with
  | true =>
    rw [MsgT.openCmd, if_pos hr] at hrun
    refine iff_of_true (.inl ?_) fun h => absurd (hopens.symm.trans h) (by decide)
    rw [hrun]
    exact Receiver.run_rejected (x.plain_of_sublist hl hds) rfl
  | false =>
    rw [MsgT.openCmd, if_neg (by simp [hr]), hsize] at hrun
    exact pushesOwn_opened hopens hds hl hgot hr hrun

end Arrivals

/-- One message: its packets push nothing else exactly when they are safe for the entry. -/
theorem pushesOwn_iff : r.PushesOwn x ↔ x.Safe r.cur := by
  cases hl : x.msg.command.isLocal with
  | true =>
    have hown := x.own_local hl
    exact pushesOwn_headless r (by simp [Arrived.opens, hown]) (by simp [Arrived.ndata, hown])
      (List.forall_mem_nil _) rfl rfl (by rw [hown])
  | false =>
    have hsub := x.sublist
    rw [Msg.pckts_eq] at hsub
    rcases List.sublist_cons_iff.mp hsub with hds | ⟨ds,hgot,hds⟩
    · exact pushesOwn_lost hl hds rfl
    · cases ha : x.msg.command.isAck with
      | true => exact pushesOwn_status hl hds hgot ha
      | false => exact pushesOwn_command hl hds hgot ha

/-- The same for the table. -/
theorem pushesOwn_table {t : FileTable} {owner : ℕ → Fin 17} {ids : Fin 17 → List ℕ}
    {rs : Fin 17 → Receiver} (h : Represents t owner ids rs) :
    PushesOwn t x ↔ x.Safe (t.cur (fdOf fromId)) := by
  have hentry := h (fdOf fromId)
  obtain ⟨_,ids',hrep⟩ := receive_refines x.got h
  have hentry' := hrep (fdOf fromId)
  dsimp only at hentry'
  rw [x.filter_fd] at hentry'
  have hqueued : t.Queued (fdOf fromId) (rs (fdOf fromId)).queue := ⟨_, hentry.queue, hentry.msgs⟩
  have hqueued' : (t.receive x.got).Queued (fdOf fromId)
    ((rs (fdOf fromId)).run x.own).queue := ⟨_, hentry'.queue, hentry'.msgs⟩
  rw [FileTable.cur, hentry.cur, ← pushesOwn_iff, PushesOwn, FileTable.cur, hentry.cur]
  constructor
  · rintro ⟨ms,ms',hms,hms',hpush⟩
    obtain rfl := hms.unique hqueued
    obtain rfl := hms'.unique hqueued'
    exact hpush
  · exact fun hpush => ⟨_, _, hqueued, hqueued', hpush⟩

end Cases

section Runs
variable {fromId : UInt8}

lemma FileTable.receive_append (t : FileTable) (ps qs : List Packet) :
    t.receive (ps ++ qs) = (t.receive ps).receive qs := List.foldl_append

lemma arrivedAll_append (xs : List (Arrived fromId)) (x : Arrived fromId) :
    arrivedAll (xs ++ [x]) = (arrivedAll xs).receive x.got := by
  simp [arrivedAll, List.flatMap_append, FileTable.receive_append]

lemma arrivedAll_represents (xs : List (Arrived fromId)) : ∃ owner ids rs,
    Represents (arrivedAll xs) owner ids rs := by
  obtain ⟨owner,ids,h⟩ := receive_refines (xs.flatMap Arrived.got) init_represents
  exact ⟨owner, ids, _, h⟩

/-- The queue of an entry is that of a receiver that takes the packets of its sender. -/
lemma receive_queued (i : Fin 17) (ps : List Packet) : (FileTable.init.receive ps).Queued i
    (Receiver.init.run (ps.filter fun p => p.fd = i)).queue := by
  obtain ⟨_,ids,h⟩ := receive_refines ps init_represents
  exact ⟨ids i, (h i).queue, (h i).msgs⟩

/-- The entry of the sender has taken the packets that reached it. -/
lemma arrivedAll_queued (xs : List (Arrived fromId)) : (arrivedAll xs).Queued (fdOf fromId)
    (Receiver.init.run (xs.flatMap Arrived.own)).queue := by
  have hqueued := receive_queued (fdOf fromId) (xs.flatMap Arrived.got)
  rw [List.filter_flatMap] at hqueued
  simp only [Arrived.filter_fd] at hqueued
  exact hqueued

lemma foldlM_arrive (xs : List (Arrived fromId)) (t : FileTable) :
    xs.foldlM FileTable.arrive t = some (t.receive (xs.flatMap Arrived.got)) := by
  induction xs generalizing t with
  | nil => rfl
  | cons x xs ih =>
    rw [List.foldlM_cons, FileTable.arrive, Option.bind_eq_bind, Option.bind_some, ih,
      List.flatMap_cons, FileTable.receive_append]

/-- No message comes out spliced exactly if the packets of every message are safe for the message
that is open when they come. -/
theorem noSplice_iff (xs : List (Arrived fromId)) :
    NoSplice xs ↔
      Meets FileTable.arrive (fun t x => x.Safe (t.cur (fdOf fromId))) .init xs := by
  rw [meets_iff_splits]
  refine forall₃_congr (fun ys x zs => forall_congr' fun _ => ?_)
  obtain ⟨_,_,_,hrep⟩ := arrivedAll_represents ys
  rw [foldlM_arrive, pushesOwn_table hrep]
  simp [arrivedAll]

/-- In such a run the queue only holds messages that were sent, and that came as a whole. -/
theorem NoSplice.queued {xs : List (Arrived fromId)} (h : NoSplice xs) :
    ∃ ms, (arrivedAll xs).Queued (fdOf fromId) ms ∧
      ∀ m ∈ ms, ∃ x ∈ xs, x.got = x.msg.pckts ∧ Carries m x.msg.payload := by
  induction xs using List.reverseRecOn with
  | nil => exact ⟨[], ⟨[], (init_represents _).queue, rfl⟩, List.forall_mem_nil _⟩
  | append_singleton xs x ih =>
    obtain ⟨ms,hms,hsent⟩ := ih fun ys y zs hys => h ys y (zs ++ [x]) (by simp [hys])
    obtain ⟨ms₁,ms',hms₁,hms',hpush⟩ := h xs x [] rfl
    obtain rfl := hms₁.unique hms
    rw [arrivedAll_append]
    refine ⟨ms', hms', fun m hm => ?_⟩
    have hold : m ∈ ms₁ → ∃ y ∈ xs ++ [x], y.got = y.msg.pckts ∧ Carries m y.msg.payload := by
      intro hm
      obtain ⟨y,hy,hcarries⟩ := hsent m hm
      exact ⟨y, List.mem_append_left _ hy, hcarries⟩
    rcases hpush with rfl | ⟨m',rfl,hgot,-,hcarries⟩
    · exact hold hm
    · rcases List.mem_cons.mp hm with rfl | hm
      · exact ⟨x, by simp, hgot, hcarries⟩
      · exact hold hm

end Runs

/-- A message of 31 bytes from node 1 whose second data packet is lost. -/
def withoutTail : Arrived 1 where
  msg := fromOne (List.replicate 31 1)
  sent := Msg.send_eq (by decide)
  got := (fromOne (List.replicate 31 1)).pckts.take 2
  sublist := List.take_sublist ..
  sender := rfl

/-- A message of one byte from node 1 whose command packet is lost. -/
def withoutHead : Arrived 1 where
  msg := fromOne [2]
  sent := Msg.send_eq (by decide)
  got := (fromOne [2]).pckts.tail
  sublist := List.tail_sublist _
  sender := rfl

/-- A message of one byte from node 1 that arrives as a whole. -/
def wholeByte : Arrived 1 where
  msg := fromOne [2]
  sent := Msg.send_eq (by decide)
  got := (fromOne [2]).pckts
  sublist := .refl _
  sender := rfl

theorem noSplice_iff_lossy : NoSplice [withoutHead, withoutTail, wholeByte, wholeByte] :=
  (noSplice_iff _).mpr (by decide +kernel)

/-- The last data packet of one message and the command packet of the next are lost. -/
theorem spliced_pushed :
    ¬NoSplice [withoutTail, withoutHead] ∧
      ∃ m, (arrivedAll [withoutTail, withoutHead]).Queued (fdOf 1) [m] ∧
        ∀ x ∈ [withoutTail, withoutHead], ¬Carries m x.msg.payload := by
  have hqueue := arrivedAll_queued [withoutTail, withoutHead]
  have hrun : (Receiver.init.run ([withoutTail, withoutHead].flatMap Arrived.own)).queue =
      [⟨true,2,2,some (List.replicate 30 1 ++ 2 :: List.replicate 29 0)⟩] := by decide
  rw [hrun] at hqueue
  have hnone : ∀ x ∈ [withoutTail, withoutHead],
      ¬Carries ⟨true,2,2,some (List.replicate 30 1 ++ 2 :: List.replicate 29 0)⟩
        x.msg.payload := by
    intro x hx
    rintro ⟨htot,d,hd,hdata⟩
    cases hd
    rcases List.mem_pair.mp hx with rfl | rfl
    · exact absurd hdata (by decide)
    · exact absurd htot (by decide)
  refine ⟨fun h => ?_, _, hqueue, hnone⟩
  obtain ⟨ms,hms,hsent⟩ := h.queued
  obtain rfl := hms.unique hqueue
  obtain ⟨x,hx,-,hcarries⟩ := hsent _ (List.mem_singleton_self _)
  exact hnone x hx hcarries

end DistributedPis
