import DistributedPis.Cluster.Delivery
import DistributedPis.Pi.ClientInit

/-! Programs for a client's Pi (`server_init`, `sendProgram` and `recProgram` in `pi-esp.c`). They
come in under the server's id, and the client waits for them under the one that `client_init` has
left in `serverFD`. -/
namespace DistributedPis
open Library

/-- The server build of the sketch takes one packet, as in `Esp.react`. -/
def Esp.reactServer (env : Env) (p : Packet) (s : Esp) : Option Esp := do
  let s ← s.parsePacket env.malloc p
  if s.fromPi.runRdy then s.runCmnd true env [] else some s

namespace Client

/-- `send_cmd` without data to an ESP with the server build. -/
def sendServer (w : Setting) (cmd toId fromId : UInt8) (c : Client) : Option Client := do
  let pckts ← sendCmd w.heap cmd toId fromId []
  let esp ← pckts.foldlM (fun e p => e.reactServer w.env p) c.esp
  some {c with esp := esp, sent := c.sent ++ pckts}

/-- `server_init`; `none` for a result of -1. There is no result at all when the wait is not over
after `polls` rounds. -/
def serverInit (w : Setting) (polls : ℕ) (c : Client) : Option (Option UInt8 × Client) := do
  let c ← c.sendServer w espServerInit 16 16
  let (fds,c) ← c.poll w
  let (fds,c) ← waitStatus w polls fds c
  if fds.status = none4 then none
  else
    let status := fds.getStatus.1
    let c := {c with consumed := c.consumed ++ [c.handled]}
    if status ≠ espFail ∧ status ≠ none4 ∧ status ≠ 0xff then
      some (some status, {c with localFD := status, serverFD := status})
    else some (none,c)

end Client

/-- `sendProgram`: the packets that go out, or a panic. -/
def sendProgram (heap : ℕ → UInt8) (serverFD toId : UInt8) (bytes : List UInt8) :
    Option (List Packet) :=
  if serverFD = 0 then none else sendCmd heap espSendData toId serverFD bytes

/-- Programs in a row, each with the bytes that lie behind its packet array. -/
def sendPrograms (serverFD toId : UInt8) (progs : List ((ℕ → UInt8) × List UInt8)) :
    Option (List Packet) :=
  (progs.mapM fun prog => sendProgram prog.1 serverFD toId prog.2).map List.flatten

/-- The loop of `recProgram`, with the table as each `get_fd` finds it: the entry with which it
ends, if it has ended. -/
def waitMsg (fnum : ℕ) : List FileTable → Option (Option Fd)
  | [] => some none
  | t::ts => do
    let fds ← t.getFd fnum
    if fds.hasMsg then some (some fds) else waitMsg fnum ts

/-- `recProgram`; the outer `none` is a panic. -/
def recProgram (serverFD : UInt8) (tables : List FileTable) : Option (Option Fd) :=
  if serverFD = 0 then none else waitMsg serverFD.toNat tables

/-- The packets are all for the local Pi. -/
def AllLocal (ps : List Packet) : Prop := ∀ p ∈ ps, p.isLocal = true

lemma AllLocal.append {ps qs : List Packet} (hps : AllLocal ps) (hqs : AllLocal qs) :
    AllLocal (ps ++ qs) := by
  intro p hp
  rcases List.mem_append.mp hp with hp | hp
  · exact hps p hp
  · exact hqs p hp

lemma msgPi_local (d : UInt8) : (Esp.msgPi d).isLocal = true := by
  simp [Packet.isLocal, Esp.msgPi, selfId]

namespace Esp
variable {server : Bool} {env : Env} {s t : Esp} {p q : Packet}

/-- From `s` to `t` the sketch writes packets for the local Pi only. -/
def Replies (s t : Esp) : Prop := ∃ ps, AllLocal ps ∧ t.toPi = s.toPi ++ wire ps

lemma replies_silent (h : t.toPi = s.toPi) : s.Replies t := ⟨[], by simp [AllLocal], by simp [h]⟩

lemma replies_msg (d : UInt8) (h : t.toPi = s.toPi ++ (msgPi d).bytes) : s.Replies t :=
  ⟨[msgPi d], by simp [AllLocal, msgPi_local], by simp [h]⟩

lemma sendMsg_replies (h : s.sendMsg server env = some t) : s.Replies t := by
  rw [sendMsg_eq] at h
  obtain ⟨client,-,rfl⟩ := Option.map_eq_some_iff.mp h
  exact replies_silent (writeClient_toPi _ _ _)

lemma clientWifiCnct_replies : s.Replies (s.clientWifiCnct env) := by
  unfold clientWifiCnct
  split
  · exact replies_msg espFail rfl
  · dsimp only
    split
    · exact replies_msg espFail rfl
    · split
      · exact replies_msg espFail rfl
      · exact replies_msg _ rfl

lemma getServerIp_replies : s.Replies s.getServerIp := by
  unfold getServerIp
  split
  · exact replies_msg espFail rfl
  · exact replies_msg _ rfl

/-- Every command but the request for the list is answered by statuses only. -/
theorem execute_replies (hp : s.fromPi.cmnd ≠ espGetConnectedList)
    (h : s.execute server env = some t) : s.Replies t := by
  unfold execute at h
  split_ifs at h
  · cases h; exact replies_msg _ rfl
  · exact sendMsg_replies h
  · cases h; exact clientWifiCnct_replies
  · cases h; exact replies_silent rfl
  · cases h; exact getServerIp_replies
  · exact sendMsg_replies h
  · exact sendMsg_replies h
  · cases h; exact replies_silent rfl

/-- So a command without data leaves the ESP idle, and what it answers is for the local Pi. -/
theorem react_replies (hm : IsMessage p []) (hs : s.fromPi = idleBuff q)
    (hp : p.cmnd ≠ espGetConnectedList) (h : s.react env p = some t) :
    s.Replies t ∧ ∃ r, t.fromPi = idleBuff r := by
  rw [react_command hm hs] at h
  obtain ⟨u,hu,rfl⟩ := Option.map_eq_some_iff.mp h
  have hreplies := execute_replies (by simpa using hp) hu
  exact ⟨hreplies, _, rfl⟩

/-- The server build answers the request to start by its own id. -/
theorem reactServer_init (hm : IsMessage p []) (hs : s.fromPi = idleBuff q)
    (hp : p.cmnd = espServerInit) : ∃ t, s.reactServer env p = some t ∧
      t.toPi = s.toPi ++ (msgPi env.softAPIP.lowNibble).bytes := by
  have hready : (collected env.malloc p [] 0).runRdy = true := (collected_runRdy le_rfl).mpr rfl
  refine ⟨({s with fromPi := collected env.malloc p [] 0}.serverInit env).clean, ?_, rfl⟩
  rw [reactServer, parsePacket_header hm hs]
  simp [hready, runCmnd, execute, hp]

end Esp

namespace Client
variable {w : Setting} {c c' : Client} {a s : UInt8}

/-- The initialisation so far: the ESP is idle, and all that it has sent, and all that the table has
seen, are statuses. -/
structure Starting (c : Client) : Prop where
  idle : ∃ q, c.esp.fromPi = idleBuff q
  line : ∃ ps, AllLocal ps ∧ c.esp.toPi = wire ps
  table : ∃ ps, AllLocal ps ∧ c.t = FileTable.init.receive ps

lemma starting_start (conns : ℕ → Conn) : (start conns).Starting :=
  ⟨⟨_,rfl⟩, ⟨[], by simp [AllLocal], rfl⟩, ⟨[], by simp [AllLocal], rfl⟩⟩

lemma wire_unit {ps : List Packet} {k : ℕ} (hk : k < ps.length) :
    Esp.packetOf (((wire ps).drop (32*k)).take 32) = ps[k] := by
  induction ps generalizing k with
  | nil => cases hk
  | cons p ps ih =>
    cases k with
    | zero =>
      rw [Nat.mul_zero, List.drop_zero, wire_cons, List.take_left' (by simp), Esp.packetOf_bytes]
      rfl
    | succ k =>
      have hoff : 32*(k+1) = p.bytes.length+32*k := by
        rw [Packet.bytes_length]
        omega
      rw [hoff, wire_cons, List.drop_length_add_append]
      exact ih (Nat.lt_of_succ_lt_succ hk)

lemma Starting.interrupt (h : c.Starting) : c.interrupt.Starting := by
  unfold Client.interrupt
  split
  · rename_i hlen
    obtain ⟨ps,hps,hline⟩ := h.line
    obtain ⟨qs,hqs,htable⟩ := h.table
    rw [hline, wire_length] at hlen
    have hk : c.handled < ps.length := by omega
    refine ⟨h.idle, h.line, qs ++ [ps[c.handled]], hqs.append ?_, ?_⟩
    · intro p hp
      rw [List.mem_singleton.mp hp]
      exact hps _ (List.getElem_mem hk)
    · dsimp only
      rw [hline, wire_unit hk, htable, FileTable.receive_append]
      rfl
  · exact h

lemma Starting.poll {fds : Fd} (h : c.Starting) (hpoll : c.poll w = some (fds,c')) :
    c'.Starting := by
  have hit (n : ℕ) : (Client.interrupt^[n] c).Starting := by
    induction n with
    | zero => exact h
    | succ n ih =>
      rw [Function.iterate_succ_apply']
      exact ih.interrupt
  unfold Client.poll at hpoll
  dsimp only at hpoll
  obtain ⟨fds',-,heq⟩ := Option.map_eq_some_iff.mp hpoll
  cases heq
  exact ⟨(hit _).idle, (hit _).line, (hit _).table⟩

lemma Starting.waitStatus {n : ℕ} {fds fds' : Fd} (h : c.Starting)
    (hwait : waitStatus w n fds c = some (fds',c')) : c'.Starting := by
  induction n generalizing fds c with
  | zero =>
    cases hwait
    exact h
  | succ n ih =>
    rw [Client.waitStatus] at hwait
    split at hwait
    · obtain ⟨⟨fds₁,c₁⟩,hpoll,hwait⟩ := Option.bind_eq_some_iff.mp hwait
      exact ih (h.poll hpoll) hwait
    · cases hwait
      exact h

lemma Starting.send {cmd toId fromId : UInt8} (h : c.Starting) (hcmd : cmd ≠ 0)
    (hlist : cmd ≠ espGetConnectedList) (hsend : c.send w cmd toId fromId = some c') :
    c'.Starting := by
  obtain ⟨p,hm,hp,hrun⟩ := send_empty w cmd toId fromId hcmd c
  rw [hrun] at hsend
  obtain ⟨e,hreact,rfl⟩ := Option.map_eq_some_iff.mp hsend
  obtain ⟨q,hidle⟩ := h.idle
  obtain ⟨ps,hps,hline⟩ := h.line
  obtain ⟨⟨qs,hqs,htoPi⟩,hidle'⟩ := Esp.react_replies hm hidle (by rwa [hp]) hreact
  refine ⟨hidle', ⟨ps ++ qs, hps.append hqs, ?_⟩, h.table⟩
  rw [htoPi, hline, wire, wire, wire, List.flatMap_append]

lemma Starting.connectToWifi {r : Option UInt8} (h : c.Starting)
    (hrun : c.connectToWifi w = some (r,c')) : c'.Starting := by
  obtain ⟨c₁,hsend,hrun⟩ := Option.bind_eq_some_iff.mp hrun
  obtain ⟨⟨fds₂,c₂⟩,hpoll,hrun⟩ := Option.bind_eq_some_iff.mp hrun
  obtain ⟨⟨fds₃,c₃⟩,hwait,hrun⟩ := Option.bind_eq_some_iff.mp hrun
  have h₃ := ((h.send (by decide) (by decide) hsend).poll hpoll).waitStatus hwait
  dsimp only at hrun
  split at hrun <;> cases hrun <;> exact ⟨h₃.idle, h₃.line, h₃.table⟩

lemma Starting.connectRetries {n : ℕ} {r : Option UInt8} (h : c.Starting)
    (hrun : connectRetries w n c = some (r,c')) : c'.Starting := by
  induction n generalizing c with
  | zero =>
    cases hrun
    exact h
  | succ n ih =>
    obtain ⟨⟨stat,c₁⟩,hconn,hrun⟩ := Option.bind_eq_some_iff.mp hrun
    have h₁ := h.connectToWifi hconn
    cases stat with
    | some stat =>
      cases hrun
      exact h₁
    | none => exact ih h₁ hrun

/-- Whatever `client_init` finds, its table has only seen statuses. -/
theorem Starting.clientInit {r : Option UInt8} (h : c.Starting)
    (hrun : c.clientInit w = some (r,c')) : c'.Starting := by
  obtain ⟨⟨stat,c₁⟩,hconn,hrun⟩ := Option.bind_eq_some_iff.mp hrun
  have h₁ := h.connectRetries hconn
  cases stat with
  | none =>
    cases hrun
    exact h₁
  | some stat =>
    obtain ⟨c₂,hsend,hrun⟩ := Option.bind_eq_some_iff.mp hrun
    obtain ⟨⟨fds₃,c₃⟩,hpoll,hrun⟩ := Option.bind_eq_some_iff.mp hrun
    have h₃ := (h₁.send (by decide) (by decide) hsend).poll hpoll
    dsimp only at hrun
    split at hrun
    · cases hrun
    · split at hrun <;> cases hrun <;> exact ⟨h₃.idle, h₃.line, h₃.table⟩

/-- The request to the server build of the sketch is on its way. -/
lemma sendServer_init (hs : w.env.softAPIP.lowNibble = s) (conns : ℕ → Conn) :
    ∃ c, (start conns).sendServer w espServerInit 16 16 = some c ∧ c.Waiting s ∧ c.polls = 0 := by
  obtain ⟨hdr,ds,hsend,hm,hds,hcmnd,-⟩ :=
    Esp.cmdPckts_isMessage w.heap espServerInit 16 16 [] (by decide) (by decide)
  rw [dataPckts_nil] at hds
  subst hds
  have hsent : sendCmd w.heap espServerInit 16 16 [] = some [hdr] :=
    (sendCmd_eq ..).trans ((if_pos (Nat.zero_le _)).trans (congrArg some hsend))
  obtain ⟨e,hreact,htoPi⟩ : ∃ e, (start conns).esp.reactServer w.env hdr = some e ∧
      e.toPi = (start conns).esp.toPi ++ (Esp.msgPi w.env.softAPIP.lowNibble).bytes :=
    Esp.reactServer_init hm rfl hcmnd
  refine ⟨{start conns with esp := e, sent := (start conns).sent ++ [hdr]}, ?_, ⟨rfl, rfl, ?_⟩, rfl⟩
  · rw [sendServer, hsent]
    simp [hreact]
  · dsimp only
    rw [htoPi, hs]
    rfl

/-- The server's Pi takes its own id for both numbers. -/
theorem serverInit_outcome {polls : ℕ} (hs : w.env.softAPIP.lowNibble = s) (hs0 : s ≠ 0)
    (hsnone : s ≠ none4) (hsfull : s ≠ 0xff) (conns : ℕ → Conn)
    (hk : ∃ k ≤ polls, 0 < w.sched k) :
    ∃ c, (start conns).serverInit w polls = some (some s,c) ∧ c.localFD = s ∧ c.serverFD = s := by
  obtain ⟨c₁,hsend,hwait,hzero⟩ := sendServer_init (w := w) hs conns
  obtain ⟨k,hk,hpos⟩ := hk
  obtain ⟨c₂,hpoll,hcase,-,hpolls⟩ := hwait.poll w
  have hfirst : ((c₂.t.fds 16).status = none4 ∧ c₂.Waiting s ∧
      ∃ k, c₂.polls ≤ k ∧ k < c₂.polls+polls ∧ 0 < w.sched k) ∨
      ((c₂.t.fds 16).status = s ∧ c₂.Answered s) := by
    split at hcase
    · rename_i hz
      rw [hzero] at hz hpolls
      have hne : k ≠ 0 := fun hc => by rw [hc, hz] at hpos; omega
      exact .inl ⟨hcase.status, hcase, k, by omega, by omega, hpos⟩
    · exact .inr ⟨hcase.status, hcase⟩
  obtain ⟨fds,c₃,hwaits,hst,-,-⟩ := waitStatus_answered hsnone polls hfirst
  refine ⟨{c₃ with consumed := c₃.consumed ++ [c₃.handled], localFD := s, serverFD := s}, ?_,
    rfl, rfl⟩
  simp [serverInit, hsend, hpoll, hwaits, Fd.getStatus, hst, hs0, hsnone, hsfull, espFail]

end Client

section Waiting
variable {t : FileTable} {ts : List FileTable} {i : Fin 17} {ms : List MsgT} {ps : List Packet}

lemma FileTable.Queued.empty_iff (h : t.Queued i ms) : (t.fds i).msgQ.empty = true ↔ ms = [] := by
  obtain ⟨ids,hq,rfl⟩ := h
  rw [hq.empty_iff, List.map_eq_nil_iff]

lemma hasMsg_eq_false (h : (t.fds i).msgQ.empty = true) : (t.fds i).hasMsg = false := by
  simp [Fd.hasMsg, h]

/-- The loop goes on as long as the queue of the entry is empty. -/
theorem waitMsg_waits (h : ∀ t ∈ ts, (t.fds i).msgQ.empty = true) :
    waitMsg i.val ts = some none := by
  induction ts with
  | nil => rfl
  | cons t ts ih =>
    have hempty := h t (List.mem_cons_self ..)
    have hget : t.getFd i.val = some (t.fds i) := dif_pos i.isLt
    rw [waitMsg, hget, Option.bind_eq_bind, Option.bind_some, hasMsg_eq_false hempty]
    exact ih fun t ht => h t (List.mem_cons_of_mem _ ht)

/-- It ends with the first entry whose queue is not empty. -/
theorem waitMsg_returns (ts : List FileTable) (h : ¬(t.fds i).msgQ.empty = true) :
    waitMsg i.val (t::ts) = some (some (t.fds i)) := by
  have hget : t.getFd i.val = some (t.fds i) := dif_pos i.isLt
  rw [waitMsg, hget, Option.bind_eq_bind, Option.bind_some, if_pos (by simpa [Fd.hasMsg] using h)]

/-- Statuses leave the entries of the other nodes alone. -/
lemma receive_local (hps : AllLocal ps) (hi : i ≠ 16) (qs : List Packet) :
    ((FileTable.init.receive ps).receive qs).Queued i
      (Receiver.init.run (qs.filter fun p => p.fd = i)).queue := by
  have hqueued := receive_queued i (ps ++ qs)
  have hnone : (ps.filter fun p => p.fd = i) = [] := by
    refine List.filter_eq_nil_iff.mpr fun p hp => ?_
    have hfd : p.fd = 16 := by simp [Packet.fd, hps p hp]
    simpa [hfd] using hi.symm
  rwa [FileTable.receive_append, List.filter_append, hnone, List.nil_append] at hqueued

end Waiting

/-- A program as a message. -/
def progMsg (serverFD toId : UInt8) (prog : (ℕ → UInt8) × List UInt8) : Msg :=
  ⟨prog.1, espSendData, toId, serverFD, prog.2⟩

section Programs
variable {wc ws : Setting} {a s : UInt8} {progs : List ((ℕ → UInt8) × List UInt8)}

/-- Programs that fit in the packet array of `send_cmd`. -/
def Fitting (progs : List ((ℕ → UInt8) × List UInt8)) : Prop :=
  ∀ prog ∈ progs, prog.2 ≠ [] ∧ prog.2.length ≤ maxPayload

lemma Fitting.length_le (h : Fitting progs) :
    ∀ m ∈ progs.map (progMsg s a), m.payload.length ≤ maxPayload := by
  intro m hm
  obtain ⟨prog,hprog,rfl⟩ := List.mem_map.mp hm
  exact (h prog hprog).2

/-- With the server's id set, the programs are sent like any messages. -/
lemma sendPrograms_eq (hs : s ≠ 0) (hfit : Fitting progs) : sendPrograms s a progs =
    some ((progs.map (progMsg s a)).flatMap Msg.pckts) := by
  have hsend : sendPrograms s a progs = sendAll (progs.map (progMsg s a)) := by
    simp only [sendPrograms, sendAll, sendProgram, if_neg hs, List.mapM_map]
    rfl
  rw [hsend]
  exact (sendAll_eq_some_iff ..).mpr ⟨hfit.length_le, rfl⟩

lemma Fitting.deliverable (h : Fitting progs) (hs : s.toNat < 15) :
    ∀ m ∈ progs.map (progMsg s a), Deliverable s m ∧ m.payload ≠ [] := by
  intro m hm
  obtain ⟨prog,hprog,rfl⟩ := List.mem_map.mp hm
  obtain ⟨hdata,hlen⟩ := h prog hprog
  refine ⟨⟨by simp [progMsg, espSendData, espAck, espNoack], rfl, ?_, ?_⟩, hdata⟩
  · simp only [progMsg]
    omega
  · exact hlen.trans_lt (by decide)

lemma fdOf_ne (s : UInt8) : fdOf s ≠ 16 := by
  have hlt := Nat.mod_lt s.toNat (show 0 < 16 by decide)
  intro h
  have hval : s.toNat % 16 = 16 := congrArg Fin.val h
  omega

lemma Fitting.filter_fd (h : Fitting progs) (hs : s.toNat < 15) (i : Fin 17) :
    (((progs.map (progMsg s a)).flatMap Msg.pckts).filter fun p => p.fd = i) =
      if fdOf s = i then (progs.map (progMsg s a)).flatMap Msg.pckts else [] := by
  have hfd : ∀ p ∈ (progs.map (progMsg s a)).flatMap Msg.pckts, p.fd = fdOf s := by
    intro p hp
    obtain ⟨m,hm,hp⟩ := List.mem_flatMap.mp hp
    exact (pckts_fd (h.deliverable hs m hm).1 p hp).2
  split
  · rename_i hi
    exact List.filter_eq_self.mpr fun p hp => by simp [hfd p hp, hi]
  · rename_i hi
    exact List.filter_eq_nil_iff.mpr fun p hp => by simp [hfd p hp, hi]

/-- The programs reach the entry of the server. -/
theorem programs_queued {ps : List Packet} (hps : AllLocal ps) (hfit : Fitting progs)
    (hs : s.toNat < 15) : ((FileTable.init.receive ps).receive
      ((progs.map (progMsg s a)).flatMap Msg.pckts)).Queued (fdOf s)
        ((progs.map (progMsg s a)).map Msg.stored).reverse := by
  have hqueued := receive_local hps (fdOf_ne s) ((progs.map (progMsg s a)).flatMap Msg.pckts)
  rw [hfit.filter_fd hs, if_pos rfl, Receiver.run_messages (hfit.deliverable hs) rfl] at hqueued
  simpa [Receiver.init] using hqueued

theorem programs_delivered {t : FileTable} (hfit : Fitting progs)
    (h : t.Queued (fdOf s) ((progs.map (progMsg s a)).map Msg.stored).reverse) :
    Delivered t (fdOf s) (progs.map Prod.snd) := by
  obtain ⟨ids,hqueue,hids⟩ := h
  have hfilter : (progs.map Prod.snd).filter (fun p => !p.isEmpty) = progs.map Prod.snd := by
    refine List.filter_eq_self.mpr fun p hp => ?_
    obtain ⟨prog,hprog,rfl⟩ := List.mem_map.mp hp
    simpa using (hfit prog hprog).1
  refine ⟨ids, hqueue, ?_⟩
  rw [hfilter, List.map_reverse, hids, List.reverse_reverse]
  have hpayload : progs.map Prod.snd = (progs.map (progMsg s a)).map Msg.payload := by
    rw [List.map_map]
    rfl
  rw [hpayload]
  exact carries_all hfit.length_le

/-- The entry of another node stays empty while the programs come in. -/
theorem other_empty {ps : List Packet} (hps : AllLocal ps) (hfit : Fitting progs)
    (hs : s.toNat < 15) {i : Fin 17} (hi : i ≠ 16) (hne : fdOf s ≠ i) (k : ℕ) :
    (((FileTable.init.receive ps).receive
      (((progs.map (progMsg s a)).flatMap Msg.pckts).take k)).fds i).msgQ.empty = true := by
  refine (FileTable.Queued.empty_iff (receive_local hps hi _)).mpr ?_
  have hnone : ((((progs.map (progMsg s a)).flatMap Msg.pckts).take k).filter
      fun p => p.fd = i) = [] := by
    have hall := hfit.filter_fd (a := a) hs i
    rw [if_neg hne] at hall
    rw [← List.sublist_nil, ← hall]
    exact (List.take_sublist k _).filter _
  rw [hnone]
  rfl

end Programs

lemma fdOf_val {a : UInt8} (h : a.toNat < 16) : (fdOf a).val = a.toNat := Nat.mod_eq_of_lt h

/-- Both Pis are initialised, the client's ESP having the id `a` and the server's `s`, and the
server sends programs to the client. Once the packets have come in, all programs are in the client's
table; `recProgram` gets to see one of them, at whatever moments it looks, only if the two ids are
the same. -/
theorem recProgram_returns_iff {wc ws : Setting} {a s : UInt8} {polls : ℕ}
    (hc : wc.env.Answers a s) (hs : ws.env.softAPIP.lowNibble = s) (ha : 1 ≤ a ∧ a ≤ 14)
    (hs' : 1 ≤ s ∧ s ≤ 14) (connsC connsS : ℕ → Conn) (hkc : ∃ k ≤ 1000, 0 < wc.sched k)
    (hks : ∃ k ≤ polls, 0 < ws.sched k) : ∃ c d,
      (Client.start connsC).clientInit wc = some (some a,c) ∧
      (Client.start connsS).serverInit ws polls = some (some s,d) ∧
      ∀ progs, Fitting progs → progs ≠ [] → ∃ pckts, sendPrograms d.serverFD a progs = some pckts ∧
        Delivered (c.t.receive pckts) (fdOf s) (progs.map Prod.snd) ∧
        ((∃ (ks : List ℕ) (fds : Fd),
          recProgram c.serverFD (ks.map fun k => c.t.receive (pckts.take k)) = some (some fds)) ↔
            a = s) := by
  have hne (x : UInt8) (hx : 1 ≤ x ∧ x ≤ 14) : x ≠ 0 ∧ x ≠ none4 ∧ x ≠ 0xff ∧ x.toNat < 15 := by
    have hle : x.toNat ≤ 14 := hx.2
    refine ⟨?_, ?_, ?_, by omega⟩ <;> rintro rfl
    · exact absurd hx.1 (by decide)
    · exact absurd hx.2 (by decide)
    · exact absurd hx.2 (by decide)
  obtain ⟨ha0,hanone,-,hlta⟩ := hne a ha
  obtain ⟨hs0,hsnone,hsfull,hlts⟩ := hne s hs'
  obtain ⟨c,_,_,hclient,-,hcfd,-⟩ :=
    Client.clientInit_outcome hc ⟨ha0,hanone⟩ hs0 connsC hkc
  obtain ⟨d,hserver,-,hdfd⟩ := Client.serverInit_outcome hs hs0 hsnone hsfull connsS hks
  obtain ⟨ps,hps,htable⟩ := ((Client.starting_start connsC).clientInit hclient).table
  refine ⟨c, d, hclient, hserver, fun progs hfit hprogs => ?_⟩
  have hqueued := programs_queued (a := a) hps hfit hlts
  rw [hdfd, hcfd, htable]
  refine ⟨_, sendPrograms_eq hs0 hfit, programs_delivered hfit hqueued, ?_, ?_⟩
  · rintro ⟨ks,fds,hrec⟩
    by_contra hdiff
    have hids : fdOf s ≠ fdOf a := fun heq => hdiff (UInt8.toNat_inj.mp (by
      rw [← fdOf_val (show a.toNat < 16 by omega), ← heq, fdOf_val (by omega)]))
    have hwaits : waitMsg (fdOf a).val (ks.map fun k => (FileTable.init.receive ps).receive
        (((progs.map (progMsg s a)).flatMap Msg.pckts).take k)) = some none := by
      apply waitMsg_waits
      intro t ht
      obtain ⟨k,-,rfl⟩ := List.mem_map.mp ht
      exact other_empty hps hfit hlts (fdOf_ne a) hids k
    rw [fdOf_val (by omega)] at hwaits
    rw [recProgram, if_neg ha0, hwaits] at hrec
    cases hrec
  · rintro rfl
    have hempty := hqueued.empty_iff.not.mpr (by simpa using hprogs)
    have hreturns := waitMsg_returns [] hempty
    rw [fdOf_val (by omega)] at hreturns
    refine ⟨[((progs.map (progMsg a a)).flatMap Msg.pckts).length], _, Eq.trans ?_ hreturns⟩
    rw [List.map_singleton, List.take_length, recProgram, if_neg ha0]

/-- The access point of `homeNet`. -/
def homeServer : Setting :=
  ⟨{plainEnv with softAPIP := ⟨192,168,4,1⟩}, fun _ => 1, fun _ => 0⟩

def threeBytes : List ((ℕ → UInt8) × List UInt8) := [(fun _ => 0, [1,2,3])]

/-- There the client waits for ever. -/
theorem recProgram_returns_iff_home : ∃ c d,
    (Client.start noConns).clientInit homeNet = some (some 2,c) ∧
    (Client.start noConns).serverInit homeServer 0 = some (some 1,d) ∧
    ∃ pckts, sendPrograms d.serverFD 2 threeBytes = some pckts ∧
      Delivered (c.t.receive pckts) (fdOf 1) [[1,2,3]] ∧
      ¬∃ (ks : List ℕ) (fds : Fd),
        recProgram c.serverFD (ks.map fun k => c.t.receive (pckts.take k)) = some (some fds) := by
  obtain ⟨c,d,hclient,hserver,hall⟩ := @recProgram_returns_iff homeNet homeServer 2 1 0
    homeNet_answers rfl (by decide) (by decide) noConns noConns ⟨0, by decide, Nat.zero_lt_one⟩
    ⟨0, le_rfl, Nat.zero_lt_one⟩
  have hfit : Fitting threeBytes := by simp [Fitting, threeBytes, maxPayload]
  obtain ⟨pckts,hsend,hdel,hiff⟩ := hall threeBytes hfit (by simp [threeBytes])
  exact ⟨c, d, hclient, hserver, pckts, hsend, hdel, hiff.not.mpr (by decide)⟩

end DistributedPis
