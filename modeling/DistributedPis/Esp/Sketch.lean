import DistributedPis.Wire.SendCmd
import Mathlib

/-! The ESP sketch `client_esp_new.ino`: the packet buffer for messages from the Pi, the
commands it runs, and the relays between the Pi's serial line and the TCP connections. -/
namespace DistributedPis

/-- A block from `malloc`, holding packets. `cells` past `size` are not part of the block. -/
structure Buff where
  size : ℕ
  cells : ℕ → Packet

/-- `pi_buff`: the message from the Pi that is being collected. -/
structure PiBuff where
  runRdy : Bool
  buff : Option Buff
  numPckts : ℕ
  curPckts : ℕ
  cmnd : UInt8
  cmndPckt : Packet

/-- The four octets of an address; all zero means unset. -/
structure IPAddress where
  a : UInt8
  b : UInt8
  c : UInt8
  d : UInt8
  deriving DecidableEq

def IPAddress.unset : IPAddress := ⟨0,0,0,0⟩

/-- The id a Pi goes by: the low four bits of the last octet. -/
def IPAddress.lowNibble (ip : IPAddress) : UInt8 := ip.d &&& 0b1111

/-- One TCP connection. A `WiFiClient` object is a handle for one of them. -/
structure Conn where
  connected : Bool
  incoming : List UInt8
  written : List UInt8
  remoteIP : IPAddress

structure Esp where
  fromPi : PiBuff
  /-- Bytes from the Pi that have arrived and were not read yet. -/
  mySerial : List UInt8
  /-- Bytes written to the Pi so far. -/
  toPi : List UInt8
  conns : ℕ → Conn
  wifiArr : ℕ → Option ℕ
  client : Option ℕ
  serverIP : IPAddress
  i : ℕ

/-- What the hardware and the network answer during one iteration of `loop()`. -/
structure Env where
  /-- The first contents of the block, or a null pointer. -/
  malloc : Option (ℕ → Packet)
  accept : Option ℕ
  wifiUp : Bool
  localIP : IPAddress
  gatewayIP : IPAddress
  softAPIP : IPAddress
  /-- The connection with which repeated `client.connect` calls end, if they end. -/
  connect : Option ℕ

/-- A network that is down and a `malloc` that succeeds. -/
def plainEnv : Env := ⟨some (fun _ _ => 0), none, false, .unset, .unset, .unset, none⟩

def idleBuff (pckt : Packet) : PiBuff := ⟨false, none, 0, 0, 0, pckt⟩

namespace Esp

/-- The state after `setup()`. -/
def setup (conns : ℕ → Conn) : Esp :=
  ⟨idleBuff (fun _ => 0), [], [], conns, fun _ => none, none, .unset, 0⟩

def connected (s : Esp) (c : Option ℕ) : Bool := (c.map (fun c => (s.conns c).connected)).getD false

def available (s : Esp) (c : Option ℕ) : ℕ := (c.map (fun c => (s.conns c).incoming.length)).getD 0

/-- Writing through a handle without a live connection does nothing. -/
def writeClient (s : Esp) (c : Option ℕ) (bs : List UInt8) : Esp :=
  match c with
  | none => s
  | some c =>
    let conn := s.conns c
    if conn.connected then
      {s with conns := Function.update s.conns c {conn with written := conn.written ++ bs}}
    else s

def writePi (s : Esp) (bs : List UInt8) : Esp := {s with toPi := s.toPi ++ bs}

/-- A message that originates from the ESP, for the reserved fd of the Pi. -/
def msgPi (data : UInt8) : Packet := espCmndPckt 15 selfId selfId 0 data 0

def writeMsgPi (s : Esp) (data : UInt8) : Esp := s.writePi (msgPi data).bytes

def clientWifiCnct (env : Env) (s : Esp) : Esp :=
  if ¬ env.wifiUp then s.writeMsgPi espFail
  else
    let s := {s with serverIP := env.gatewayIP}
    if s.serverIP = .unset then s.writeMsgPi espFail
    else match env.connect with
      | none => s.writeMsgPi espFail
      | some c => {s with client := some c}.writeMsgPi env.localIP.lowNibble

def getServerIp (s : Esp) : Esp :=
  if s.serverIP = .unset then s.writeMsgPi espFail else s.writeMsgPi s.serverIP.lowNibble

def serverInit (env : Env) (s : Esp) : Esp := s.writeMsgPi env.softAPIP.lowNibble

/-- The two packets of the reply to `espGetConnectedList`. The list of ids is built and then
overwritten by a fixed text. -/
def connectedListPckts : List Packet :=
  [espCmndPckt 9 1 1 0 0xf 16,
   espPckt 16 1 1 [65,66,67,68,69,70,71,72,73,74,75,76,77,78,79,80]]

def getConnectedList (s : Esp) : Esp := s.writePi (wire connectedListPckts)

/-- Forward whole packets that wait on connection `wifiArr[from]`. The index is out of bounds
from 16 on. -/
def relayToPi (fromId : ℕ) (s : Esp) : Option Esp :=
  if 16 ≤ fromId then none
  else
    let s := {s with client := s.wifiArr fromId}
    match s.client with
    | none => some s
    | some c =>
      let conn := s.conns c
      let n := 32*(conn.incoming.length / 32)
      let conns := Function.update s.conns c {conn with incoming := conn.incoming.drop n}
      some ({s with conns := conns}.writePi (conn.incoming.take n))

/-- Byte `j` of the packet buffer, seen as a `char*`. -/
def byteAt (buff : Option Buff) (j : ℕ) : UInt8 :=
  match buff with
  | none => 0
  | some m => m.cells (j/32) ⟨j % 32, Packet.mod32_lt j⟩

/-- The bytes `send_msg` writes: the command packet, then for packet `i` and byte `k` the
buffer's byte `k+(i*k)`. -/
def msgBytes (b : PiBuff) : List UInt8 :=
  b.cmndPckt.bytes ++ (List.range b.numPckts).flatMap
    (fun i => (List.range 32).map (fun k => byteAt b.buff (k+(i*k))))

/-- Relay the collected message. Without a connected client the retry loop ends only when a
`connect` succeeds. -/
def sendMsg (server : Bool) (env : Env) (s : Esp) : Option Esp := do
  let client ← if s.connected s.client then some s.client else env.connect.map some
  let client := if server then s.wifiArr s.fromPi.cmndPckt.espTo else client
  some ({s with client := client}.writeClient client (msgBytes s.fromPi))

/-- The client that the retry loop ends with. -/
def retry (env : Env) (s : Esp) : Option (Option ℕ) :=
  if s.connected s.client then some s.client else env.connect.map some

theorem sendMsg_eq (server : Bool) (env : Env) (s : Esp) :
    s.sendMsg server env = (s.retry env).map fun client =>
      let client := if server then s.wifiArr s.fromPi.cmndPckt.espTo else client
      {s with client := client}.writeClient client (msgBytes s.fromPi) := by
  unfold sendMsg retry
  cases s.connected s.client <;> cases env.connect <;> rfl

theorem sendMsg_isSome_iff (server : Bool) (env : Env) (s : Esp) :
    (s.sendMsg server env).isSome = true ↔
      s.connected s.client = true ∨ env.connect.isSome = true := by
  rw [sendMsg_eq, Option.isSome_map, retry]
  cases s.connected s.client <;> simp

/-- Free and reset the buffer and drain the serial line. -/
def clean (s : Esp) : Esp := {s with fromPi := idleBuff s.fromPi.cmndPckt, mySerial := []}

/-- The command is complete once as many data packets as announced are in the buffer. -/
def checkFull (b : PiBuff) : PiBuff := if b.numPckts = b.curPckts then {b with runRdy := true} else b

/-- Take one packet; `none` is a store behind the end of the packet buffer. -/
def parsePacket (malloc : Option (ℕ → Packet)) (pckt : Packet) (s : Esp) : Option Esp :=
  let b := s.fromPi
  if b.runRdy then some s.clean
  else if pckt.nbytes = 0 then some s.clean
  else if pckt.isCmd then
    if 0 < b.cmnd ∨ pckt.cmnd = 0 then some s.clean
    else
      -- the argument of `malloc` is a 32 bit product
      some {s with fromPi := checkFull {b with
        buff := malloc.map (fun cells => ⟨32*npckts pckt.size % 2^32, cells⟩)
        numPckts := npckts pckt.size
        cmnd := pckt.cmnd
        cmndPckt := pckt}}
  else if b.cmnd = 0 then some s.clean
  else match b.buff with
    | none => some s.clean
    | some m =>
      if 32*b.curPckts + 32 ≤ m.size then
        some {s with fromPi := checkFull {b with
          buff := some {m with cells := Function.update m.cells b.curPckts pckt}
          curPckts := b.curPckts + 1}}
      else none

/-- The body of the command's `case`. -/
def execute (server : Bool) (env : Env) (s : Esp) : Option Esp :=
  if s.fromPi.cmnd = espServerInit then some (s.serverInit env)
  else if s.fromPi.cmnd = espSendData then s.sendMsg server env
  else if s.fromPi.cmnd = espWifiConnect then some (s.clientWifiCnct env)
  else if s.fromPi.cmnd = espIsConnected then some s
  else if s.fromPi.cmnd = espGetConnectedList then some s.getConnectedList
  else if s.fromPi.cmnd = espGetServIp then some s.getServerIp
  else if s.fromPi.cmnd = espAck then s.sendMsg server env
  else if s.fromPi.cmnd = espNoack then s.sendMsg server env
  else some s.clean

/-- Run the complete command; `during` is what arrives on the line before it is cleaned up. -/
def runCmnd (server : Bool) (env : Env) (during : List UInt8) (s : Esp) : Option Esp := do
  let s ← s.execute server env
  some (clean {s with mySerial := s.mySerial ++ during})

/-- What an iteration of `loop()` did for the Pi. -/
inductive Act
  | idle
  | parsed (unit : List UInt8)
  | ran (b : PiBuff)

/-- The relays at the start of an iteration. -/
def relays (server : Bool) (env : Env) (s : Esp) : Option Esp :=
  if server then
    let s := match env.accept with
      | none => s
      | some c =>
        let slot := (s.conns c).remoteIP.lowNibble.toNat
        {s with client := some c, wifiArr := Function.update s.wifiArr slot (some c)}
    (List.range 16).foldlM (fun s i =>
      if s.connected (s.wifiArr i) ∧ 31 < s.available (s.wifiArr i) then s.relayToPi i
      else some s) s
  else if 31 < s.available s.client then s.relayToPi (s.i % 256)
  else some s

/-- The start of an iteration: a waiting client gets the slot of its id. -/
def acceptClient (env : Env) (s : Esp) : Esp :=
  match env.accept with
  | none => s
  | some c =>
    let slot := (s.conns c).remoteIP.lowNibble.toNat
    {s with client := some c, wifiArr := Function.update s.wifiArr slot (some c)}

/-- The client in slot `i` has sent a whole packet. -/
def Waits (s : Esp) (i : ℕ) : Prop :=
  s.connected (s.wifiArr i) = true ∧ 31 < s.available (s.wifiArr i)

instance (s : Esp) (i : ℕ) : Decidable (s.Waits i) := inferInstanceAs (Decidable (_ ∧ _))

/-- What an iteration does for slot `i`. -/
def relaySlot (s : Esp) (i : ℕ) : Option Esp := if s.Waits i then s.relayToPi i else some s

theorem relays_server (env : Env) (s : Esp) :
    s.relays true env = (List.range 16).foldlM relaySlot (s.acceptClient env) := rfl

theorem relays_client (env : Env) (s : Esp) : s.relays false env =
    if 31 < s.available s.client then s.relayToPi (s.i % 256) else some s := rfl

def packetOf (unit : List UInt8) : Packet := Packet.ofBytes unit

/-- One iteration of `loop()`: `before` has arrived when the buffer is looked at, `during`
arrives while the packet is parsed or the command runs. -/
def loop (server : Bool) (env : Env) (before during : List UInt8) (s : Esp) :
    Option (Esp × Act) := do
  let s ← s.relays server env
  let s := {s with mySerial := s.mySerial ++ before}
  if s.fromPi.runRdy then
    let t ← s.runCmnd server env during
    some (t, .ran s.fromPi)
  else if 31 < s.mySerial.length then
    let unit := s.mySerial.take 32
    let t ← {s with mySerial := s.mySerial.drop 32 ++ during}.parsePacket env.malloc
      (packetOf unit)
    some (t, .parsed unit)
  else some ({s with mySerial := s.mySerial ++ during, i := s.i + 1}, .idle)

end Esp
end DistributedPis
