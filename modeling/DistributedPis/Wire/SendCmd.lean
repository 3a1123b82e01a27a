import DistributedPis.Library.Chunks
import DistributedPis.Libpi.FastHash
import DistributedPis.Wire.Packet

/-! The Pi's packetiser: a command packet that announces the payload size, then the payload
in data packets of at most 30 bytes. -/
namespace DistributedPis
open Library

def cmdNbytes : ℕ := 9
def dataNbytes : ℕ := 30
def pktNbytes : ℕ := 32

/-- The reserved id: a packet between this id and itself is for the local Pi or ESP. -/
def selfId : UInt8 := 0xf

def espFail : UInt8 := 0b0000
def espServerInit : UInt8 := 0b0010
def espSendData : UInt8 := 0b0011
def espWifiConnect : UInt8 := 0b0100
def espIsConnected : UInt8 := 0b0101
def espGetConnectedList : UInt8 := 0b0110
def espGetServIp : UInt8 := 0b0111
def espAck : UInt8 := 0b1000
def espNoack : UInt8 := 0b1001

/-- Both ends turn a size in bytes into a packet count this way. -/
def npckts (nbytes : ℕ) : ℕ := pieces dataNbytes nbytes

/-- The loop on `bytes_left`; every round takes at least one byte, so `nbytes` rounds of
fuel are enough. `room` is what is left of the block: a packet is not stored behind it. -/
def fillPckts (toId fromId : UInt8) : ℕ → ℕ → List UInt8 → Option (List Packet)
  | _, 0, _ => some []
  | room, fuel+1, data =>
    if data.length = 0 then some []
    else if room < pktNbytes then none
    else do
      let sendSize := if data.length ≥ 30 then 30 else data.length % 30
      let pckts ← fillPckts toId fromId (room-pktNbytes) fuel (data.drop sendSize)
      return espPckt sendSize toId fromId (data.take sendSize) :: pckts

/-- The bytes of the block for the data packets. The product is one of 32 bits. -/
def blockSize (nbytes : ℕ) : ℕ := pktNbytes*npckts nbytes % 2^32

/-- The hash runs over a constant `32*32` bytes from the packet array on, whatever the array's
length, so it also reads `heap`, the bytes behind the array. -/
def checksum (heap : ℕ → UInt8) (pckts : List Packet) : UInt32 :=
  fastHash32 (if pckts = [] then none
    else some ((pckts.flatMap Packet.bytes ++ (List.range (32*pktNbytes)).map heap).take
      (32*pktNbytes)))

/-- The packets in the order in which they are put on the line. All data packets are stored before
the first one is put there, so a call that leaves its block sends nothing. -/
def sendCmd (heap : ℕ → UInt8) (cmd toId fromId : UInt8) (bytes : List UInt8) :
    Option (List Packet) := do
  let pckts ← fillPckts toId fromId (blockSize bytes.length) bytes.length bytes
  return espCmndPckt cmdNbytes toId fromId (checksum heap pckts).toNat cmd bytes.length :: pckts

/-- One data packet for every piece of the payload, in order. -/
def dataPckts (toId fromId : UInt8) (bytes : List UInt8) : List Packet :=
  (chunks dataNbytes bytes).map fun c => espPckt c.length toId fromId c

/-- The packets of a call that stays in its block. -/
def cmdPckts (heap : ℕ → UInt8) (cmd toId fromId : UInt8) (bytes : List UInt8) : List Packet :=
  let pckts := dataPckts toId fromId bytes
  espCmndPckt cmdNbytes toId fromId (checksum heap pckts).toNat cmd bytes.length :: pckts

/-- The longest payload whose packets fit in the block. -/
def maxPayload : ℕ := 30*(2^27-1)

/-- The arguments of one call, with the bytes that happen to lie behind its packet array. -/
structure Msg where
  heap : ℕ → UInt8
  cmd : UInt8
  toId : UInt8
  fromId : UInt8
  payload : List UInt8

def Msg.send (m : Msg) : Option (List Packet) :=
  sendCmd m.heap m.cmd m.toId m.fromId m.payload

/-- What several calls put on the line, one after the other. -/
def sendAll (ms : List Msg) : Option (List Packet) := (ms.mapM Msg.send).map List.flatten

def Msg.pckts (m : Msg) : List Packet := cmdPckts m.heap m.cmd m.toId m.fromId m.payload

/-- What `sw_uart_putPckt` puts on the line for a list of packets. -/
def wire (pckts : List Packet) : List UInt8 := pckts.flatMap Packet.bytes

@[simp] theorem wire_nil : wire [] = [] := rfl

@[simp] theorem wire_cons (p : Packet) (ps : List Packet) :
    wire (p::ps) = p.bytes ++ wire ps := rfl

@[simp] theorem wire_length (ps : List Packet) : (wire ps).length = 32*ps.length := by
  induction ps with
  | nil => rfl
  | cons p ps ih => simp only [wire_cons, List.length_append, Packet.bytes_length, ih,
      List.length_cons]; omega

lemma take_sendSize (data : List UInt8) :
    data.take (if data.length ≥ 30 then 30 else data.length % 30) = data.take 30 := by
  split
  · rfl
  · rename_i h
    rw [Nat.mod_eq_of_lt (by omega), List.take_length, List.take_of_length_le (by omega)]

lemma drop_sendSize (data : List UInt8) :
    data.drop (if data.length ≥ 30 then 30 else data.length % 30) = data.drop 30 := by
  split
  · rfl
  · rename_i h
    rw [Nat.mod_eq_of_lt (by omega), List.drop_length, List.drop_of_length_le (by omega)]

lemma sendSize_eq (data : List UInt8) :
    (if data.length ≥ 30 then 30 else data.length % 30) = (data.take 30).length := by
  rw [List.length_take]
  split <;> omega

@[simp] theorem dataPckts_length (toId fromId : UInt8) (bytes : List UInt8) :
    (dataPckts toId fromId bytes).length = npckts bytes.length := by
  simp [dataPckts, npckts]

@[simp] theorem dataPckts_nil (toId fromId : UInt8) : dataPckts toId fromId [] = [] := by
  simp [dataPckts]

lemma dataPckts_cons (toId fromId : UInt8) {data : List UInt8} (h : data ≠ []) :
    dataPckts toId fromId data =
      espPckt (data.take 30).length toId fromId (data.take 30) ::
        dataPckts toId fromId (data.drop 30) := by
  rw [dataPckts, chunks_cons _ _ (by decide) h, List.map_cons]
  rfl

lemma npckts_drop {data : List UInt8} (h : data ≠ []) :
    npckts data.length = npckts (data.drop 30).length + 1 := by
  rw [List.length_drop]
  exact pieces_sub 30 _ (by decide) (List.length_pos_iff.mpr h)

/-- The loop comes to its end exactly if the block has room for all packets. -/
theorem fillPckts_eq (toId fromId : UInt8) (room fuel : ℕ) (data : List UInt8)
    (h : data.length ≤ fuel) :
    fillPckts toId fromId room fuel data =
      if 32*npckts data.length ≤ room then some (dataPckts toId fromId data) else none := by
  induction fuel generalizing room data with
  | zero =>
    obtain rfl := List.length_eq_zero_iff.mp (Nat.le_zero.mp h)
    simp [fillPckts, npckts]
  | succ fuel ih =>
    by_cases hd : data = []
    · subst hd; simp [fillPckts, npckts]
    · have hl := List.length_pos_iff.mpr hd
      have ht := ih (room-pktNbytes) (data.drop 30) (by rw [List.length_drop]; omega)
      have hn := npckts_drop hd
      have hp : pktNbytes = 32 := rfl
      rw [fillPckts, if_neg (by omega), dataPckts_cons toId fromId hd]
      dsimp only
      rw [take_sendSize, drop_sendSize, sendSize_eq, ht]
      by_cases hroom : room < pktNbytes
      · rw [if_pos hroom, if_neg (by omega)]
      · by_cases hfit : 32*npckts data.length ≤ room
        · rw [if_neg hroom, if_pos (by omega), if_pos hfit]
          rfl
        · rw [if_neg hroom, if_neg (by omega), if_neg hfit]
          rfl

/-- The product wraps from `2^27` data packets on. -/
lemma npckts_lt_iff (n : ℕ) : 32*npckts n < 2^32 ↔ n ≤ maxPayload := by
  have h : 2^27-1 < npckts n ↔ 30*(2^27-1) < n := lt_pieces 30 n _ (by decide)
  unfold maxPayload
  omega

/-- A call that stays in its block sends the command packet and then the data packets; with a
longer payload it leaves its block. -/
theorem sendCmd_eq (heap : ℕ → UInt8) (cmd toId fromId : UInt8) (bytes : List UInt8) :
    sendCmd heap cmd toId fromId bytes =
      if bytes.length ≤ maxPayload then some (cmdPckts heap cmd toId fromId bytes) else none := by
  rw [sendCmd, fillPckts_eq _ _ _ _ _ le_rfl, blockSize, pktNbytes]
  by_cases h : 32*npckts bytes.length < 2^32
  · rw [Nat.mod_eq_of_lt h, if_pos le_rfl, if_pos ((npckts_lt_iff _).mp h)]
    rfl
  · have hmod := Nat.mod_lt (32*npckts bytes.length) (show 0 < 2^32 by decide)
    rw [if_neg (by omega), if_neg ((npckts_lt_iff _).not.mp h)]
    rfl

theorem Msg.send_eq_some_iff (m : Msg) (ps : List Packet) :
    m.send = some ps ↔ m.payload.length ≤ maxPayload ∧ m.pckts = ps := by
  rw [Msg.send, sendCmd_eq]
  split
  · rename_i h
    rw [Option.some.injEq, and_iff_right h]
    rfl
  · rename_i h
    exact iff_of_false (by simp) fun hp => h hp.1

theorem Msg.send_eq {m : Msg} (h : m.payload.length ≤ maxPayload) : m.send = some m.pckts :=
  (m.send_eq_some_iff _).mpr ⟨h, rfl⟩

@[simp] theorem sendAll_nil : sendAll [] = some [] := rfl

theorem sendAll_cons (m : Msg) (ms : List Msg) :
    sendAll (m::ms) = do return (← m.send) ++ (← sendAll ms) := by
  rw [sendAll, List.mapM_cons, sendAll]
  cases m.send with
  | none => rfl
  | some ps => cases ms.mapM Msg.send <;> rfl

theorem sendAll_eq_some_iff (ms : List Msg) (ps : List Packet) :
    sendAll ms = some ps ↔
      (∀ m ∈ ms, m.payload.length ≤ maxPayload) ∧ ms.flatMap Msg.pckts = ps := by
  induction ms generalizing ps with
  | nil => simp
  | cons m ms ih =>
    rw [sendAll_cons, List.forall_mem_cons, List.flatMap_cons]
    by_cases hm : m.payload.length ≤ maxPayload
    · rw [Msg.send_eq hm]
      by_cases hms : ∀ x ∈ ms, x.payload.length ≤ maxPayload
      · rw [(ih _).mpr ⟨hms, rfl⟩]
        simpa [hm] using fun _ => hms
      · have hnone : sendAll ms = none :=
          Option.eq_none_iff_forall_not_mem.mpr fun qs hqs => hms ((ih qs).mp hqs).1
        simp [hnone, hms]
    · have hnone : m.send = none :=
        Option.eq_none_iff_forall_not_mem.mpr fun qs hqs => hm ((m.send_eq_some_iff qs).mp hqs).1
      simp [hnone, hm]

theorem getElem_dataPckts (toId fromId : UInt8) (bytes : List UInt8) (i : ℕ)
    (h : i < (dataPckts toId fromId bytes).length) :
    (dataPckts toId fromId bytes)[i] =
      espPckt (chunk 30 bytes i).length toId fromId (chunk 30 bytes i) := by
  simp [dataPckts, dataNbytes]

/-- What a receiver may rely on in every data packet. -/
structure IsDataPckt (toId fromId : UInt8) (p : Packet) : Prop where
  isCmd : p.isCmd = false
  espFrom : p.espFrom = fromId.toNat % 16
  espTo : p.espTo = toId.toNat % 16
  nbytes_pos : 0 < p.nbytes
  nbytes_le : p.nbytes ≤ 30

theorem chunk_ne_nil {α : Type*} (w : ℕ) (xs : List α) (i : ℕ) (hw : 0 < w)
    (h : i < pieces w xs.length) : 0 < (chunk w xs i).length := by
  rw [chunk_length]
  have hi := (lt_pieces w xs.length i hw).mp h
  omega

theorem isDataPckt_of_mem {toId fromId : UInt8} {bytes : List UInt8} {p : Packet}
    (h : p ∈ dataPckts toId fromId bytes) : IsDataPckt toId fromId p := by
  obtain ⟨i,hi,rfl⟩ := List.getElem_of_mem h
  have hc : i < pieces 30 bytes.length := by simpa [npckts, dataNbytes] using hi
  have hpos := chunk_ne_nil 30 bytes i (by decide) hc
  have hle := chunk_length_le 30 bytes i
  rw [getElem_dataPckts]
  constructor <;> simp <;> omega

end DistributedPis
