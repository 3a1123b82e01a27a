import DistributedPis.Esp.Collect
import DistributedPis.Pi.FileTable

/-! `client_init` against a local ESP. Both requests wait for a status in entry 16 of the table:
the reply interrupt writes it, the waiters poll and clear copies of it. -/
namespace DistributedPis

/-- The sketch takes one packet and runs the command once it is complete. -/
def Esp.react (env : Env) (p : Packet) (s : Esp) : Option Esp := do
  let s ← s.parsePacket env.malloc p
  if s.fromPi.runRdy then s.runCmnd false env [] else some s

/-- A client Pi and its ESP. -/
structure Client where
  t : FileTable
  esp : Esp
  /-- The packets of all requests so far. -/
  sent : List Packet
  /-- How many reply packets the interrupt handler has taken. -/
  handled : ℕ
  /-- How many copies of the entry were taken. -/
  polls : ℕ
  /-- For every `get_status`: how many replies were handled when its copy was taken. -/
  consumed : List ℕ
  localFD : UInt8
  serverFD : UInt8

/-- The network, how many reply packets come in right before each `get_fd`, and the bytes behind
empty packet arrays. -/
structure Setting where
  env : Env
  sched : ℕ → ℕ
  heap : ℕ → UInt8

namespace Client

def start (conns : ℕ → Conn) : Client := ⟨.init, .setup conns, [], 0, 0, [], 0, 0⟩

/-- `send_cmd` without data. The replies of the ESP stay on the line. -/
def send (w : Setting) (cmd toId fromId : UInt8) (c : Client) : Option Client := do
  let pckts ← sendCmd w.heap cmd toId fromId []
  let esp ← pckts.foldlM (fun e p => e.react w.env p) c.esp
  some {c with esp := esp, sent := c.sent ++ pckts}

/-- The interrupt for the next reply packet, if the ESP has sent one. -/
def interrupt (c : Client) : Client :=
  if 32*(c.handled+1) ≤ c.esp.toPi.length then {c with
    t := c.t.recieveMsgHandler (Esp.packetOf ((c.esp.toPi.drop (32*c.handled)).take 32))
    handled := c.handled+1}
  else c

/-- `get_fd(MAXFILES)`, with the interrupts that come in before it. -/
def poll (w : Setting) (c : Client) : Option (Fd × Client) :=
  let c := interrupt^[w.sched c.polls] c
  (c.t.getFd maxFiles).map (fun fds => (fds, {c with polls := c.polls+1}))

/-- At most `n` more polls for a status. -/
def waitStatus (w : Setting) : ℕ → Fd → Client → Option (Fd × Client)
  | 0, fds, c => some (fds,c)
  | n+1, fds, c =>
    if fds.status = none4 then do
      let (fds,c) ← c.poll w
      waitStatus w n fds c
    else some (fds,c)

def connectToWifi (w : Setting) (c : Client) : Option (Option UInt8 × Client) := do
  let c ← c.send w espWifiConnect 0xf 0xf
  let (fds,c) ← c.poll w
  let (fds,c) ← waitStatus w 1000 fds c
  let status := fds.getStatus.1
  let c := {c with consumed := c.consumed ++ [c.handled]}
  if status = 0 ∨ status = none4 then some (none,c) else some (some status,c)

/-- The first loop of `client_init`. -/
def connectRetries (w : Setting) : ℕ → Client → Option (Option UInt8 × Client)
  | 0, c => some (none,c)
  | n+1, c => do
    let (stat,c) ← c.connectToWifi w
    match stat with
    | some stat => some (some stat,c)
    | none => connectRetries w n c

/-- `client_init`; `none` for a result of -1. Its second wait looks at one copy for ever. -/
def clientInit (w : Setting) (c : Client) : Option (Option UInt8 × Client) := do
  let (stat,c) ← connectRetries w 5 c
  match stat with
  | none => some (none,c)
  | some stat =>
    let c ← c.send w 0xf 0xf espGetServIp
    let (fds,c) ← c.poll w
    if ¬ fds.hasStatus then none
    else
      let statS := fds.getStatus.1
      let c := {c with consumed := c.consumed ++ [c.handled]}
      if statS = espFail then some (none,c)
      else some (some stat, {c with localFD := stat, serverFD := statS})

/-- What `client_init` is for: both requests are made and answered, each by its own reply. -/
structure Paired (a s : UInt8) (c : Client) : Prop where
  asked : (∃ p ∈ c.sent, p.cmnd = espWifiConnect) ∧ ∃ p ∈ c.sent, p.cmnd = espGetServIp
  replied : 2 ≤ c.handled
  localFD : c.localFD = a
  serverFD : c.serverFD = s
  consumed : c.consumed.Nodup

end Client

/-- The network as the requests need it: the ESP joins, its own id is `a` and the server's `s`. -/
structure Env.Answers (env : Env) (a s : UInt8) : Prop where
  wifiUp : env.wifiUp = true
  connect : env.connect ≠ none
  localIP : env.localIP.lowNibble = a
  gatewayIP : env.gatewayIP.lowNibble = s

section Reactions
variable {env : Env} {a s : UInt8} {e e' : Esp} {p q : Packet}

/-- A command without data runs at once and leaves the packet buffer idle. -/
lemma react_command (hm : Esp.IsMessage p []) (he : e.fromPi = idleBuff q) :
    e.react env p =
      ({e with fromPi := Esp.collected env.malloc p [] 0}.execute false env).map Esp.clean := by
  have hready : (Esp.collected env.malloc p [] 0).runRdy = true :=
    (Esp.collected_runRdy le_rfl).mpr rfl
  rw [Esp.react, Esp.parsePacket_header hm he]
  simp only [Option.bind_eq_bind, Option.bind_some, hready, if_true, Esp.runCmnd]
  rw [Option.map_eq_bind]
  rfl

@[simp] lemma collected_nil_cmnd (malloc : Option (ℕ → Packet)) (p : Packet) :
    (Esp.collected malloc p [] 0).cmnd = p.cmnd := by simp [Esp.collected]

lemma clientWifiCnct_answers (h : env.Answers a s) (hs : s ≠ 0) (e : Esp) :
    ∃ c, e.clientWifiCnct env =
      {e with serverIP := env.gatewayIP, client := some c, toPi := e.toPi ++ (Esp.msgPi a).bytes} := by
  obtain ⟨c,hc⟩ := Option.ne_none_iff_exists'.mp h.connect
  have hgate : env.gatewayIP ≠ .unset := fun hz => hs (by rw [← h.gatewayIP, hz]; rfl)
  refine ⟨c, ?_⟩
  simp [Esp.clientWifiCnct, h.wifiUp, hgate, hc, Esp.writeMsgPi, Esp.writePi, h.localIP]

/-- Joining the network is answered by the ESP's own id. -/
theorem react_wifiConnect (h : env.Answers a s) (hs : s ≠ 0) (hm : Esp.IsMessage p [])
    (hp : p.cmnd = espWifiConnect) (he : e.fromPi = idleBuff q) : ∃ e' r, e.react env p = some e' ∧
      e'.fromPi = idleBuff r ∧ e'.toPi = e.toPi ++ (Esp.msgPi a).bytes := by
  obtain ⟨c,hc⟩ := clientWifiCnct_answers h hs {e with fromPi := Esp.collected env.malloc p [] 0}
  have hexec : {e with fromPi := Esp.collected env.malloc p [] 0}.execute false env =
      some ({e with fromPi := Esp.collected env.malloc p [] 0}.clientWifiCnct env) := by
    simp [Esp.execute, hp, espWifiConnect, espServerInit, espSendData]
  rw [react_command hm he, hexec, hc]
  exact ⟨_, _, rfl, rfl, rfl⟩

/-- An unknown command is dropped without an answer. -/
theorem react_unknown (hm : Esp.IsMessage p []) (hp : p.cmnd = 0xf) (he : e.fromPi = idleBuff q) :
    ∃ e' r, e.react env p = some e' ∧ e'.fromPi = idleBuff r ∧ e'.toPi = e.toPi := by
  have hexec : {e with fromPi := Esp.collected env.malloc p [] 0}.execute false env =
      some {e with fromPi := Esp.collected env.malloc p [] 0}.clean := by
    simp [Esp.execute, hp, espGetServIp, espWifiConnect, espServerInit, espSendData,
      espIsConnected, espGetConnectedList, espAck, espNoack]
  rw [react_command hm he, hexec]
  exact ⟨_, _, rfl, rfl, rfl⟩

end Reactions

namespace Client
variable {w : Setting} {a s : UInt8} {c : Client}

lemma send_empty (w : Setting) (cmd toId fromId : UInt8) (hcmd : cmd ≠ 0) (c : Client) :
    ∃ p, Esp.IsMessage p [] ∧ p.cmnd = cmd ∧ c.send w cmd toId fromId =
      (c.esp.react w.env p).map (fun e => {c with esp := e, sent := c.sent ++ [p]}) := by
  obtain ⟨hdr,ds,hsend,hm,hds,hcmnd,_⟩ :=
    Esp.cmdPckts_isMessage w.heap cmd toId fromId [] hcmd (by decide)
  rw [dataPckts_nil] at hds
  subst hds
  refine ⟨hdr, hm, hcmnd, ?_⟩
  have hsent : sendCmd w.heap cmd toId fromId [] = some [hdr] :=
    (sendCmd_eq ..).trans ((if_pos (Nat.zero_le _)).trans (congrArg some hsend))
  rw [send, hsent]
  simp [Option.map_eq_bind]

/-- The reply `a` is on the line and was not taken yet. -/
structure Waiting (a : UInt8) (c : Client) : Prop where
  handled : c.handled = 0
  status : (c.t.fds 16).status = none4
  toPi : c.esp.toPi = (Esp.msgPi a).bytes

/-- The reply `a` was taken; nothing clears the table's own status after that. -/
structure Answered (a : UInt8) (c : Client) : Prop where
  handled : c.handled = 1
  status : (c.t.fds 16).status = a
  toPi : c.esp.toPi = (Esp.msgPi a).bytes

/-- What polling leaves alone. -/
structure Same (c c' : Client) : Prop where
  esp : c'.esp = c.esp
  sent : c'.sent = c.sent
  consumed : c'.consumed = c.consumed

lemma Same.rfl {c : Client} : Same c c := ⟨.refl _, .refl _, .refl _⟩

lemma Same.trans {c c' c'' : Client} (h : Same c c') (h' : Same c' c'') : Same c c'' :=
  ⟨h'.esp.trans h.esp, h'.sent.trans h.sent, h'.consumed.trans h.consumed⟩

lemma Answered.interrupt (h : c.Answered a) : c.interrupt = c := by
  rw [Client.interrupt, h.handled, h.toPi, Packet.bytes_length]
  rfl

lemma Waiting.interrupt (h : c.Waiting a) : c.interrupt.Answered a ∧ Same c c.interrupt := by
  have hp : Esp.packetOf ((c.esp.toPi.drop (32*0)).take 32) = Esp.msgPi a := by
    rw [h.toPi, Nat.mul_zero, List.drop_zero, List.take_of_length_le (by simp),
      Esp.packetOf_bytes]
  have hlocal : (Esp.msgPi a).isLocal = true := by
    simp [Packet.isLocal, Esp.msgPi, selfId]
  have hcmnd : (Esp.msgPi a).cmnd = a := rfl
  have hc : c.interrupt = {c with t := c.t.setStatus 16 a, handled := 1} := by
    rw [Client.interrupt, h.handled, hp, h.toPi, Packet.bytes_length, if_pos (by decide),
      FileTable.recieveMsgHandler, if_pos hlocal, hcmnd]
  rw [hc]
  exact ⟨⟨rfl, by simp [FileTable.setStatus], h.toPi⟩, ⟨rfl,rfl,rfl⟩⟩

lemma Answered.poll (h : c.Answered a) (w : Setting) : ∃ c', c.poll w = some (c.t.fds 16,c') ∧
    c'.Answered a ∧ Same c c' ∧ c'.t = c.t := by
  have hit : Client.interrupt^[w.sched c.polls] c = c := Function.iterate_fixed h.interrupt _
  refine ⟨{c with polls := c.polls+1}, ?_, ⟨h.handled,h.status,h.toPi⟩, ⟨rfl,rfl,rfl⟩, rfl⟩
  rw [Client.poll, hit]
  rfl

lemma Waiting.poll (h : c.Waiting a) (w : Setting) : ∃ c', c.poll w = some (c'.t.fds 16,c') ∧
    (if w.sched c.polls = 0 then c'.Waiting a else c'.Answered a) ∧ Same c c' ∧
      c'.polls = c.polls+1 := by
  cases hn : w.sched c.polls with
  | zero =>
    refine ⟨{c with polls := c.polls+1}, ?_, ⟨h.handled,h.status,h.toPi⟩, ⟨rfl,rfl,rfl⟩, rfl⟩
    rw [Client.poll, hn]
    rfl
  | succ n =>
    obtain ⟨ha,hsame⟩ := h.interrupt
    have hit : Client.interrupt^[n+1] c = c.interrupt := by
      rw [Function.iterate_succ_apply, Function.iterate_fixed ha.interrupt]
    have hpolls : c.interrupt.polls = c.polls := by unfold Client.interrupt; split <;> rfl
    refine ⟨{c.interrupt with polls := c.polls+1}, ?_, ⟨ha.handled,ha.status,ha.toPi⟩,
      ⟨hsame.esp,hsame.sent,hsame.consumed⟩, rfl⟩
    rw [Client.poll, hn, hit, hpolls]
    rfl

/-- The polling loop ends with the reply, if that comes within its polls. -/
lemma waitStatus_answered (ha : a ≠ none4) (n : ℕ) {fds : Fd}
    (h : (fds.status = none4 ∧ c.Waiting a ∧ ∃ k, c.polls ≤ k ∧ k < c.polls+n ∧ 0 < w.sched k) ∨
      (fds.status = a ∧ c.Answered a)) :
    ∃ fds' c', waitStatus w n fds c = some (fds',c') ∧ fds'.status = a ∧ c'.Answered a ∧
      Same c c' := by
  induction n generalizing fds c with
  | zero =>
    rcases h with ⟨_,_,k,hlo,hhi,_⟩ | ⟨hf,hans⟩
    · omega
    · exact ⟨fds, c, rfl, hf, hans, .rfl⟩
  | succ n ih =>
    rcases h with ⟨hf,hwait,k,hlo,hhi,hk⟩ | ⟨hf,hans⟩
    · obtain ⟨c₁,hpoll,hcase,hsame,hpolls⟩ := hwait.poll w
      have hnext : ((c₁.t.fds 16).status = none4 ∧ c₁.Waiting a ∧
          ∃ k, c₁.polls ≤ k ∧ k < c₁.polls+n ∧ 0 < w.sched k) ∨
          ((c₁.t.fds 16).status = a ∧ c₁.Answered a) := by
        split at hcase
        · rename_i hz
          have hne : k ≠ c.polls := fun hc => by rw [hc, hz] at hk; omega
          exact Or.inl ⟨hcase.status, hcase, k, by omega, by omega, hk⟩
        · exact Or.inr ⟨hcase.status, hcase⟩
      obtain ⟨fds',c',hrun,hst,hans,hsame'⟩ := ih hnext
      refine ⟨fds', c', ?_, hst, hans, hsame.trans hsame'⟩
      rw [waitStatus, if_pos hf, hpoll]
      exact hrun
    · refine ⟨fds, c, ?_, hf, hans, .rfl⟩
      rw [waitStatus, if_neg (by rw [hf]; exact ha)]

/-- The first request, as it is meant: it waits for its own reply. -/
theorem connectToWifi_replied (h : w.env.Answers a s) (ha : a ≠ 0 ∧ a ≠ none4) (hs : s ≠ 0)
    (conns : ℕ → Conn) (hk : ∃ k ≤ 1000, 0 < w.sched k) : ∃ c p r,
      (start conns).connectToWifi w = some (some a,c) ∧ c.Answered a ∧ c.consumed = [1] ∧
        c.sent = [p] ∧ p.cmnd = espWifiConnect ∧ c.esp.fromPi = idleBuff r := by
  obtain ⟨p,hm,hcmnd,hsend⟩ := send_empty w espWifiConnect 0xf 0xf (by decide) (start conns)
  obtain ⟨e,r,hreact,hidle,htoPi⟩ := react_wifiConnect h hs hm hcmnd
    (e := (start conns).esp) rfl
  rw [hreact, Option.map_some] at hsend
  have hwait : Waiting a {start conns with esp := e, sent := (start conns).sent ++ [p]} :=
    ⟨rfl, rfl, htoPi⟩
  obtain ⟨k,hk,hpos⟩ := hk
  obtain ⟨c₁,hpoll,hcase,hsame,hpolls⟩ := hwait.poll w
  have hfirst : ((c₁.t.fds 16).status = none4 ∧ c₁.Waiting a ∧
      ∃ k, c₁.polls ≤ k ∧ k < c₁.polls+1000 ∧ 0 < w.sched k) ∨
      ((c₁.t.fds 16).status = a ∧ c₁.Answered a) := by
    split at hcase
    · rename_i hz
      have hz : w.sched 0 = 0 := hz
      have hp1 : c₁.polls = 1 := hpolls
      have hne : k ≠ 0 := fun hc => by rw [hc, hz] at hpos; omega
      exact Or.inl ⟨hcase.status, hcase, k, by omega, by omega, hpos⟩
    · exact Or.inr ⟨hcase.status, hcase⟩
  obtain ⟨fds,c,hwaits,hst,hans,hsame'⟩ := waitStatus_answered ha.2 1000 hfirst
  have hall := hsame.trans hsame'
  refine ⟨{c with consumed := c.consumed ++ [c.handled]}, p, r, ?_,
    ⟨hans.handled,hans.status,hans.toPi⟩, ?_, hall.sent, hcmnd, ?_⟩
  · simp [connectToWifi, hsend, hpoll, hwaits, Fd.getStatus, hst, ha.1, ha.2]
  · dsimp only
    rw [hall.consumed, hans.handled]
    rfl
  · dsimp only
    rw [hall.esp, hidle]

/-- The whole of `client_init`: the second request goes out as an unknown command from node 7,
and the status of the first one is taken for its reply. -/
theorem clientInit_outcome (h : w.env.Answers a s) (ha : a ≠ 0 ∧ a ≠ none4) (hs : s ≠ 0)
    (conns : ℕ → Conn) (hk : ∃ k ≤ 1000, 0 < w.sched k) : ∃ c p q,
      (start conns).clientInit w = some (some a,c) ∧ c.localFD = a ∧ c.serverFD = a ∧
        c.handled = 1 ∧ c.consumed = [1,1] ∧ c.sent = [p,q] ∧ p.cmnd = espWifiConnect ∧
        q.cmnd = 0xf := by
  obtain ⟨c₁,p,r,hconn,hans,hcons,hsent,hp,hidle⟩ := connectToWifi_replied h ha hs conns hk
  obtain ⟨q,hm,hq,hsend⟩ := send_empty w 0xf 0xf espGetServIp (by decide) c₁
  obtain ⟨e,r',hreact,_,htoPi⟩ : ∃ e r, c₁.esp.react w.env q = some e ∧ _ :=
    react_unknown hm hq hidle
  rw [hreact, Option.map_some] at hsend
  have hans₂ : Answered a {c₁ with esp := e, sent := c₁.sent ++ [q]} :=
    ⟨hans.handled, hans.status, htoPi.trans hans.toPi⟩
  obtain ⟨c₂,hpoll,hans₃,hsame,ht⟩ := hans₂.poll w
  have hst : (c₁.t.fds 16).status = a := hans.status
  refine ⟨{c₂ with consumed := c₂.consumed ++ [c₂.handled], localFD := a, serverFD := a}, p, q,
    ?_, rfl, rfl, hans₃.handled, ?_, ?_, hp, hq⟩
  · simp [clientInit, connectRetries, hconn, hsend, hpoll, Fd.hasStatus, Fd.getStatus, hst,
      ha.1, ha.2, espFail]
  · dsimp only
    rw [hsame.consumed, hans₃.handled]
    dsimp only
    rw [hcons]
    rfl
  · dsimp only
    rw [hsame.sent]
    dsimp only
    rw [hsent]
    rfl

end Client

/-- Whatever the ids are and whenever the first reply comes, the requests are not paired with
their replies. -/
theorem clientInit_never_paired {w : Setting} {a s : UInt8} (h : w.env.Answers a s)
    (ha : 1 ≤ a ∧ a ≤ 14) (hs : 1 ≤ s ∧ s ≤ 14) (conns : ℕ → Conn)
    (hk : ∃ k ≤ 1000, 0 < w.sched k) : ∃ c, (Client.start conns).clientInit w = some (some a,c) ∧
      c.serverFD = a ∧ ¬ c.Paired a s := by
  have hne : a ≠ 0 ∧ a ≠ none4 := by
    refine ⟨?_, ?_⟩ <;> rintro rfl
    · exact absurd ha.1 (by decide)
    · exact absurd ha.2 (by decide)
  have hs0 : s ≠ 0 := by rintro rfl; exact absurd hs.1 (by decide)
  obtain ⟨c,p,q,hrun,_,hserver,hhandled,_,_,_⟩ := Client.clientInit_outcome h hne hs0 conns hk
  refine ⟨c, hrun, hserver, fun hp => ?_⟩
  have := hp.replied
  omega

/-- The gateway is node 1 and this node 2; every reply comes in before the first poll. -/
def homeNet : Setting :=
  ⟨{plainEnv with
      wifiUp := true
      localIP := ⟨192,168,4,2⟩
      gatewayIP := ⟨192,168,4,1⟩
      connect := some 0}, fun _ => 1, fun _ => 0⟩

lemma homeNet_answers : homeNet.env.Answers 2 1 := ⟨rfl, by decide, rfl, rfl⟩

def noConns : ℕ → Conn := fun _ => ⟨false,[],[],.unset⟩

theorem clientInit_never_paired_home :
    ∃ c, (Client.start noConns).clientInit homeNet = some (some 2,c) ∧ c.serverFD = 2 ∧
      ¬ c.Paired 2 1 :=
  clientInit_never_paired homeNet_answers (by decide) (by decide) noConns
    ⟨0, by decide, Nat.zero_lt_one⟩

/-- There the server's id becomes 2 instead of 1, and only one reply was ever handled. -/
theorem home_wrong_server :
    ∃ c, (Client.start noConns).clientInit homeNet = some (some 2,c) ∧ c.serverFD ≠ 1 ∧
      c.handled < 2 ∧ ¬ c.consumed.Nodup := by
  obtain ⟨c,_,_,hrun,_,hserver,hhandled,hcons,_,_,_⟩ :=
    Client.clientInit_outcome homeNet_answers (by decide) (by decide) noConns
      ⟨0, by decide, Nat.zero_lt_one⟩
  exact ⟨c, hrun, by rw [hserver]; decide, by omega, by rw [hcons]; decide⟩

end DistributedPis
