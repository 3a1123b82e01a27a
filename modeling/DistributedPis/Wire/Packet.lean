import DistributedPis.Library.Bytes

/-! The 32 byte packets of the Pi to ESP protocol. Both ends declare the same two structs
over them: a data packet and a command packet share the two header bytes. -/
namespace DistributedPis
open Library

/-- One packet as it stands on the serial line and in the 32 byte receive buffers. -/
abbrev Packet := Fin 32 → UInt8

namespace Packet

/-- Lay bytes out from the start of a zeroed packet. -/
def ofBytes (bs : List UInt8) : Packet := fun k => bs.getD k.val 0

/-- All 32 bytes in transmission order. -/
def bytes (p : Packet) : List UInt8 := List.ofFn p

@[simp] theorem bytes_length (p : Packet) : p.bytes.length = 32 := by simp [bytes]

def nbytes (p : Packet) : ℕ := (p 0).toNat / 4 % 32
def isCmd (p : Packet) : Bool := 128 ≤ (p 0).toNat
def espFrom (p : Packet) : ℕ := (p 1).toNat % 16
def espTo (p : Packet) : ℕ := (p 1).toNat / 16

/-- The 30 data bytes of `esp_pckt_t`. -/
def data (p : Packet) : List UInt8 := p.bytes.drop 2

-- Both machines are little-endian; the compiler aligns the two 32 bit fields of `esp_cmnd_pckt_t`
-- to offsets 4 and 12.
def cksum (p : Packet) : ℕ := le32 (p 4) (p 5) (p 6) (p 7)
def cmnd (p : Packet) : UInt8 := p 8
def size (p : Packet) : ℕ := le32 (p 12) (p 13) (p 14) (p 15)

theorem mod32_lt (j : ℕ) : j % 32 < 32 := Nat.mod_lt _ (by decide)
theorem espFrom_lt (p : Packet) : p.espFrom < 16 := Nat.mod_lt _ (by decide)

theorem size_lt (p : Packet) : p.size < 2^32 := le32_lt _ _ _ _

@[simp] theorem data_length (p : Packet) : p.data.length = 30 := by simp [data]

end Packet

/-- Header byte 0: two zero bits, the 5 bit `nbytes` and the `isCmd` bit. -/
def headerLow (nbytes : ℕ) (isCmd : Bool) : UInt8 :=
  UInt8.ofNat (4*(nbytes % 32) + if isCmd then 128 else 0)

/-- Header byte 1: the two 4 bit ids. -/
def headerHigh (toId fromId : UInt8) : UInt8 :=
  UInt8.ofNat (fromId.toNat % 16 + 16*(toId.toNat % 16))

def espCmndPckt (nbytes : ℕ) (toId fromId : UInt8) (cksum : ℕ) (cmnd : UInt8) (size : ℕ) :
    Packet :=
  Packet.ofBytes [headerLow nbytes true, headerHigh toId fromId, 0, 0,
    byteOf cksum 0, byteOf cksum 1, byteOf cksum 2, byteOf cksum 3, cmnd, 0, 0, 0,
    byteOf size 0, byteOf size 1, byteOf size 2, byteOf size 3]

def espPckt (nbytes : ℕ) (toId fromId : UInt8) (data : List UInt8) : Packet :=
  Packet.ofBytes (headerLow nbytes false :: headerHigh toId fromId :: data)

theorem headerLow_toNat (nbytes : ℕ) (isCmd : Bool) :
    (headerLow nbytes isCmd).toNat = 4*(nbytes % 32) + if isCmd then 128 else 0 := by
  rw [headerLow, UInt8.toNat_ofNat']
  split <;> omega

theorem headerHigh_toNat (toId fromId : UInt8) :
    (headerHigh toId fromId).toNat = fromId.toNat % 16 + 16*(toId.toNat % 16) := by
  rw [headerHigh, UInt8.toNat_ofNat']
  omega

section CommandFields
variable (nbytes : ℕ) (toId fromId : UInt8) (ck : ℕ) (cmd : UInt8) (sz : ℕ)

@[simp] theorem espCmndPckt_nbytes :
    (espCmndPckt nbytes toId fromId ck cmd sz).nbytes = nbytes % 32 := by
  change (headerLow nbytes true).toNat / 4 % 32 = _
  rw [headerLow_toNat]
  simp only [if_true]
  omega

@[simp] theorem espCmndPckt_isCmd :
    (espCmndPckt nbytes toId fromId ck cmd sz).isCmd = true := by
  change decide (128 ≤ (headerLow nbytes true).toNat) = true
  rw [headerLow_toNat, decide_eq_true_eq]
  simp only [if_true]
  omega

@[simp] theorem espCmndPckt_espFrom :
    (espCmndPckt nbytes toId fromId ck cmd sz).espFrom = fromId.toNat % 16 := by
  change (headerHigh toId fromId).toNat % 16 = _
  rw [headerHigh_toNat]
  omega

@[simp] theorem espCmndPckt_espTo :
    (espCmndPckt nbytes toId fromId ck cmd sz).espTo = toId.toNat % 16 := by
  change (headerHigh toId fromId).toNat / 16 = _
  rw [headerHigh_toNat]
  omega

@[simp] theorem espCmndPckt_cksum :
    (espCmndPckt nbytes toId fromId ck cmd sz).cksum = ck % 2^32 := le32_byteOf ck

@[simp] theorem espCmndPckt_cmnd :
    (espCmndPckt nbytes toId fromId ck cmd sz).cmnd = cmd := rfl

@[simp] theorem espCmndPckt_size :
    (espCmndPckt nbytes toId fromId ck cmd sz).size = sz % 2^32 := le32_byteOf sz

end CommandFields

section DataFields
variable (nbytes : ℕ) (toId fromId : UInt8) (bs : List UInt8)

@[simp] theorem espPckt_nbytes : (espPckt nbytes toId fromId bs).nbytes = nbytes % 32 := by
  change (headerLow nbytes false).toNat / 4 % 32 = _
  rw [headerLow_toNat]
  simp

@[simp] theorem espPckt_isCmd : (espPckt nbytes toId fromId bs).isCmd = false := by
  change decide (128 ≤ (headerLow nbytes false).toNat) = false
  rw [headerLow_toNat, decide_eq_false_iff_not]
  simp only [Bool.false_eq_true, if_false]
  omega

@[simp] theorem espPckt_espFrom :
    (espPckt nbytes toId fromId bs).espFrom = fromId.toNat % 16 := by
  change (headerHigh toId fromId).toNat % 16 = _
  rw [headerHigh_toNat]
  omega

@[simp] theorem espPckt_espTo :
    (espPckt nbytes toId fromId bs).espTo = toId.toNat % 16 := by
  change (headerHigh toId fromId).toNat / 16 = _
  rw [headerHigh_toNat]
  omega

/-- The data bytes are the given ones, then zeros. -/
theorem espPckt_data (h : bs.length ≤ 30) :
    (espPckt nbytes toId fromId bs).data.take bs.length = bs := by
  apply List.ext_getElem
  · simp [h]
  · intro k _ hk
    simp only [Packet.data, Packet.bytes, List.getElem_take, List.getElem_drop,
      List.getElem_ofFn, espPckt, Packet.ofBytes, Nat.add_comm 2 k, List.getD_cons_succ]
    simp [List.getD_eq_getElem?_getD, hk]

end DataFields

end DistributedPis
