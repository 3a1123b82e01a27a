import DistributedPis.Libpi.Queue
import DistributedPis.Wire.SendCmd

/-! The Pi's table of received messages, `fds.c`: one entry for every sender id and one for the
local ESP. Here each `msg_t` is an object of its own, named by its allocation number, and each
data buffer is the block that was asked for. -/
namespace DistributedPis

def none4 : UInt8 := 0b1111
def maxFiles : ℕ := 16

/-- A message that is being reassembled or waits in a queue. Its `next` field is kept in the
table's map of next pointers; its `cmd` field is never read. -/
structure MsgT where
  hasCmd : Bool
  totPckts : ℕ
  curPckts : ℕ
  data : Option (List UInt8)
  deriving DecidableEq

/-- The zeroed message. -/
def MsgT.zero : MsgT := ⟨false,0,0,none⟩

structure Fd where
  curMsg : ℕ
  msgQ : Queue ℕ
  status : UInt8
  deriving DecidableEq

structure FileTable where
  msgs : ℕ → MsgT
  next : ℕ → Option ℕ
  /-- How many `msg_t` objects have been allocated. -/
  nmsgs : ℕ
  fds : Fin 17 → Fd

/-- Copy into a block; what lies behind the end of the block is not part of the message. -/
def memcpy (dst : List UInt8) (off : ℕ) (src : List UInt8) : List UInt8 :=
  (dst.take off ++ src ++ dst.drop (off+src.length)).take dst.length

@[simp] theorem memcpy_length (dst : List UInt8) (off : ℕ) (src : List UInt8) :
    (memcpy dst off src).length = dst.length := by
  simp only [memcpy, List.length_take, List.length_append, List.length_drop]
  omega

namespace MsgT

/-- The command branch. A second command closes the message; a fresh one sets the counts and
asks for `30*totPckts` bytes, a 32 bit product. -/
def openCmd (p : Packet) (m : MsgT) : MsgT :=
  if m.hasCmd then zero
  else ⟨true, npckts p.size, 0, some (List.replicate (30*npckts p.size % 2^32) 0)⟩

/-- The data branch of an open message. -/
def store (p : Packet) (m : MsgT) : MsgT :=
  {m with
    data := m.data.map (fun d => memcpy d (30*m.curPckts % 2^32) (p.data.take p.nbytes))
    curPckts := (m.curPckts + 1) % 2^32}

/-- The data branch without an open message. -/
def reject (m : MsgT) : MsgT := {m with totPckts := 0, curPckts := 0, data := none}

end MsgT

/-- Both ids reserved: the packet is a status from the local ESP. -/
def Packet.isLocal (p : Packet) : Bool := p.espFrom == 0xf && p.espTo == 0xf

def Packet.isAck (p : Packet) : Bool := p.cmnd == espAck || p.cmnd == espNoack

-- entries are written as literals
instance entries_neZero : NeZero 17 := ⟨by decide⟩

/-- The table entry a packet is handled in. -/
def Packet.fd (p : Packet) : Fin 17 :=
  if p.isLocal then 16 else ⟨p.espFrom, Nat.lt_trans p.espFrom_lt (by decide)⟩

namespace FileTable

/-- `init_fileTable` -/
def init : FileTable :=
  ⟨fun _ => .zero, fun _ => none, maxFiles+1, fun i => ⟨i.val, .zero, none4⟩⟩

def setStatus (t : FileTable) (i : Fin 17) (status : UInt8) : FileTable :=
  {t with fds := Function.update t.fds i {t.fds i with status := status}}

def setMsg (t : FileTable) (id : ℕ) (m : MsgT) : FileTable :=
  {t with msgs := Function.update t.msgs id m}

/-- `add_msg`: push the current message and start on a fresh one. -/
def addMsg (t : FileTable) (i : Fin 17) : FileTable :=
  let nxtMsg := t.nmsgs
  let pushed := (t.fds i).msgQ.push t.next (t.fds i).curMsg
  { msgs := Function.update t.msgs nxtMsg .zero
    next := pushed.1
    nmsgs := t.nmsgs+1
    fds := Function.update t.fds i ⟨nxtMsg, pushed.2, (t.fds i).status⟩ }

/-- `recieveMsgHandler`, from the point where all 32 bytes have been read. -/
def recieveMsgHandler (p : Packet) (t : FileTable) : FileTable :=
  if p.isLocal then t.setStatus 16 p.cmnd
  else
    let i := p.fd
    let id := (t.fds i).curMsg
    let m := t.msgs id
    if p.isCmd then
      if p.isAck then t.setStatus i p.cmnd else t.setMsg id (m.openCmd p)
    else if ¬ m.hasCmd then t.setMsg id m.reject
    else
      let t := t.setMsg id (m.store p)
      if (m.store p).curPckts = (m.store p).totPckts then t.addMsg i else t

/-- The packet is the last one that its message waits for. -/
def completes (p : Packet) (t : FileTable) : Bool :=
  let m := t.msgs (t.fds p.fd).curMsg
  !p.isLocal && !p.isCmd && m.hasCmd && (m.store p).curPckts == (m.store p).totPckts

/-- Handle packets one after the other. -/
def receive (ps : List Packet) (t : FileTable) : FileTable :=
  ps.foldl (fun t p => t.recieveMsgHandler p) t

/-- `get_fd` copies the entry; other numbers panic. -/
def getFd (t : FileTable) (fnum : ℕ) : Option Fd :=
  if h : fnum < 17 then some (t.fds ⟨fnum,h⟩) else none

end FileTable

namespace Fd

def hasMsg (f : Fd) : Bool := ¬ f.msgQ.empty

/-- `get_msg` pops from the queue header it is given; an empty one panics. -/
def getMsg (next : ℕ → Option ℕ) (f : Fd) : Option (ℕ × Fd) :=
  if f.msgQ.empty then none
  else (f.msgQ.pop next).1.map (fun id => (id, {f with msgQ := (f.msgQ.pop next).2}))

def hasStatus (f : Fd) : Bool := f.status != none4

/-- `get_status` clears the status of the entry it is given. -/
def getStatus (f : Fd) : UInt8 × Fd := (f.status, {f with status := none4})

end Fd
end DistributedPis
