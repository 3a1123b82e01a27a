import DistributedPis.Pi.Receiver

/-! `fds.c` over byte addresses. `kmalloc` is a bump allocator that clears what it hands out, a
pointer has 4 bytes, an `fd` 20 bytes and a `msg_t` 20 bytes; `init_fileTable` asks for the size
of a pointer when it allocates a `msg_t`. -/
namespace DistributedPis
open Library

/-- The allocator's rounding and the end of the memory. -/
structure Heap where
  align : ℕ
  limit : ℕ
  align_pos : 0 < align
  align_le : align ≤ 8
  limit_lt : limit < 2^32

/-- What a request for `n` bytes takes. -/
def Heap.round (h : Heap) (n : ℕ) : ℕ := (n + h.align - 1) / h.align * h.align

structure Board where
  mem : ℕ → UInt8
  brk : ℕ
  fileTable : ℕ
  /-- For every `msg_t`, address and size of the block last allocated for its data. -/
  dataBlock : ℕ → ℕ × ℕ

def sizeofFd : ℕ := 20
def sizeofMsg : ℕ := 20
def sizeofPtr : ℕ := 4

/-- One execution of the `memcpy` of the handler. -/
structure Copy where
  dst : ℕ
  src : ℕ
  len : ℕ
  /-- The packet buffer. -/
  buff : ℕ
  /-- The block that was allocated for the message. -/
  dataBlock : ℕ × ℕ
  deriving DecidableEq

/-- It reads data bytes of the packet only, and writes inside the message's block only. -/
def Copy.InBounds (c : Copy) : Prop :=
  (c.buff+2 ≤ c.src ∧ c.src+c.len ≤ c.buff+32) ∧
    (c.len = 0 ∨ c.dataBlock.1 ≤ c.dst ∧ c.dst+c.len ≤ c.dataBlock.1+c.dataBlock.2)

namespace Board

/-- Without enough memory left the program stops. -/
def kmalloc (h : Heap) (n : ℕ) (s : Board) : Option (ℕ × Board) :=
  if s.brk + h.round n ≤ h.limit then
    some (s.brk, {s with
      mem := fill s.mem s.brk (List.replicate (h.round n) 0)
      brk := s.brk + h.round n})
  else none

def set8 (s : Board) (a : ℕ) (v : UInt8) : Board := {s with mem := write8 s.mem a v}

def set32 (s : Board) (a v : ℕ) : Board := {s with mem := write32 s.mem a v}

def get32 (s : Board) (a : ℕ) : ℕ := read32 s.mem a

/-- The address of `fileTable[i]`. -/
def fdAddr (s : Board) (i : ℕ) : ℕ := s.fileTable + sizeofFd*i

/-- One round of the loop in `init_fileTable`. -/
def initEntry (h : Heap) (i : ℕ) (s : Board) : Option Board := do
  let (curMsg,s) ← s.kmalloc h sizeofPtr
  let s := s.set8 curMsg 0
  let s := s.set8 (curMsg+1) 0
  let s := s.set32 (curMsg+4) 0
  let s := s.set32 (curMsg+8) 0
  let s := s.set32 (curMsg+12) 0
  let s := s.set32 (s.fdAddr i) curMsg
  some (s.set8 (s.fdAddr i + 16) none4)

/-- `init_fileTable`, with any bytes in the memory and the heap starting at `base`. -/
def initFileTable (h : Heap) (junk : ℕ → UInt8) (base : ℕ) : Option Board := do
  let (fileTable,s) ← (⟨junk, base, 0, fun _ => (0,0)⟩ : Board).kmalloc h (sizeofFd*(maxFiles+1))
  (List.range (maxFiles+1)).foldlM (fun s i => initEntry h i s) {s with fileTable := fileTable}

/-- The packet in the receive buffer, as the memory holds it now. -/
def pcktAt (s : Board) (buff : ℕ) : Packet := fun k => s.mem (buff+k)

/-- `Q_push` -/
def push (s : Board) (q e : ℕ) : Board :=
  let s := s.set32 (q+8) (s.get32 (q+8) + 1)
  let s := s.set32 (e+16) (s.get32 q)
  let s := s.set32 q e
  if s.get32 (q+4) = 0 then s.set32 (q+4) e else s

def addMsg (h : Heap) (fds : ℕ) (s : Board) : Option Board := do
  let (nxtMsg,s) ← s.kmalloc h sizeofMsg
  let s := s.set8 (nxtMsg+1) 0
  let s := s.set32 (nxtMsg+4) 0
  let s := s.set32 (nxtMsg+8) 0
  let s := s.set32 (nxtMsg+12) 0
  let s := s.push (fds+4) (s.get32 fds)
  some (s.set32 fds nxtMsg)

/-- A repeated command closes the message. -/
def closeMsg (s : Board) (msg : ℕ) : Board :=
  (((s.set8 msg 0).set32 (msg+4) 0).set32 (msg+8) 0).set32 (msg+12) 0

/-- A command opens a fresh message. -/
def openMsg (h : Heap) (buff msg : ℕ) (s : Board) : Option Board := do
  let s := s.set8 msg 1
  let s := s.set32 (msg+4) (npckts (s.pcktAt buff).size)
  let s := s.set32 (msg+8) 0
  let size := 30*s.get32 (msg+4) % 2^32
  let (data,s) ← s.kmalloc h size
  some {s.set32 (msg+12) data with
    dataBlock := Function.update s.dataBlock msg (data,size)}

/-- A data packet without a command before it. -/
def rejectMsg (s : Board) (msg : ℕ) : Board :=
  ((s.set32 (msg+4) 0).set32 (msg+8) 0).set32 (msg+12) 0

/-- The copy a data packet asks for. -/
def copyOf (s : Board) (buff msg : ℕ) : Copy :=
  ⟨(s.get32 (msg+12) + 30*s.get32 (msg+8) % 2^32) % 2^32, buff+2, (s.pcktAt buff).nbytes, buff,
    s.dataBlock msg⟩

def memcpy (s : Board) (c : Copy) : Board :=
  {s with mem := fill s.mem c.dst (block s.mem c.src c.len)}

def storeMsg (s : Board) (buff msg : ℕ) : Board :=
  let s := s.memcpy (s.copyOf buff msg)
  s.set32 (msg+8) (s.get32 (msg+8) + 1)

/-- The second half of `recieveMsgHandler`: a whole packet is in `buff`. -/
def handlePckt (h : Heap) (buff : ℕ) (s : Board) : Option (Board × Option Copy) :=
  let pckt := s.pcktAt buff
  if pckt.isLocal then some (s.set8 (s.fdAddr maxFiles + 16) pckt.cmnd, none)
  else
    let fds := s.fdAddr pckt.espFrom
    let msg := s.get32 fds
    if pckt.isCmd then
      if pckt.isAck then some (s.set8 (fds+16) pckt.cmnd, none)
      else if s.mem msg ≠ 0 then some (s.closeMsg msg, none)
      else (s.openMsg h buff msg).map (fun s => (s,none))
    else if s.mem msg = 0 then some (s.rejectMsg msg, none)
    else
      let copy := s.copyOf buff msg
      let s := s.storeMsg buff msg
      if s.get32 (msg+8) = s.get32 (msg+4) then (s.addMsg h fds).map (fun s => (s,some copy))
      else some (s, some copy)

/-- `recieveMsgHandler`, when all 32 bytes come in before the timeout. -/
def recieveMsgHandler (h : Heap) (p : Packet) (s : Board) : Option (Board × Option Copy) := do
  let (buff,s) ← s.kmalloc h pktNbytes
  handlePckt h buff {s with mem := fill s.mem buff p.bytes}

/-- Handle packets one after the other, with all copies that were made. -/
def receive (h : Heap) : List Packet → Board → Option (Board × List Copy)
  | [], s => some (s,[])
  | p::ps, s => do
    let (s,c) ← s.recieveMsgHandler h p
    let (s,cs) ← receive h ps s
    some (s, c.toList ++ cs)

/-- The message whose `msg_t` is at address `a`. -/
def msgAt (s : Board) (a : ℕ) : MsgT :=
  ⟨s.mem a != 0, s.get32 (a+4), s.get32 (a+8),
    if s.get32 (a+12) = 0 then none
    else some (block s.mem (s.get32 (a+12)) (30*s.get32 (a+4) % 2^32))⟩

/-- The first `n` messages of a list. -/
def msgsFrom (s : Board) : ℕ → ℕ → List MsgT
  | 0, _ => []
  | n+1, a => s.msgAt a :: msgsFrom s n (s.get32 (a+16))

/-- What an entry holds: its reassembly state, its queued messages and its status. -/
def view (s : Board) (i : Fin 17) : Receiver :=
  ⟨s.msgAt (s.get32 (s.fdAddr i)), s.msgsFrom (s.get32 (s.fdAddr i + 12)) (s.get32 (s.fdAddr i + 4)),
    s.mem (s.fdAddr i + 16)⟩

end Board
end DistributedPis
