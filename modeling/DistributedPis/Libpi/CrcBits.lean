import DistributedPis.Libpi.Crc32
import DistributedPis.Library.ShiftRegister

/-! The checksum of `boot-crc32.h` as a shift register over the single bits of the buffer. The table
of the source holds what eight shifts do to the low byte of the register. -/
namespace DistributedPis
open Library

/-- The polynomial of the checksum, lowest degree in the highest bit. -/
def crc32Poly : Word := 0xEDB88320

/-- The bits of a byte in the order in which the serial line sends them. -/
def byteBits (b : UInt8) : List Bool := (List.range 8).map b.toNat.testBit

def bufBits (buf : List UInt8) : List Bool := buf.flatMap byteBits

@[simp] theorem byteBits_length (b : UInt8) : (byteBits b).length = 8 := by simp [byteBits]

theorem byteBits_injective : Function.Injective byteBits := by
  intro b c h
  apply UInt8.toNat_inj.mp
  apply Nat.eq_of_testBit_eq
  intro i
  by_cases hi : i < 8
  · have hget := congrArg (fun bits => bits.getD i false) h
    simpa [byteBits, hi] using hget
  · have hpow : 2^8 ≤ 2^i := Nat.pow_le_pow_right (by omega) (by omega)
    rw [Nat.testBit_lt_two_pow (b.toNat_lt.trans_le hpow),
      Nat.testBit_lt_two_pow (c.toNat_lt.trans_le hpow)]

theorem bufBits_injective : Function.Injective bufBits := by
  intro buf
  induction buf with
  | nil =>
    intro buf' h
    cases buf' with
    | nil => rfl
    | cons c buf' =>
      have hlen := congrArg List.length h
      simp only [bufBits, List.flatMap_nil, List.flatMap_cons, List.length_append,
        byteBits_length, List.length_nil] at hlen
      omega
  | cons b buf ih =>
    intro buf' h
    cases buf' with
    | nil =>
      have hlen := congrArg List.length h
      simp only [bufBits, List.flatMap_nil, List.flatMap_cons, List.length_append,
        byteBits_length, List.length_nil] at hlen
      omega
    | cons c buf' =>
      simp only [bufBits, List.flatMap_cons] at h
      obtain ⟨hhead,htail⟩ := List.append_inj h (by simp)
      rw [byteBits_injective hhead, ih htail]

theorem packed_byteBits (b : UInt8) : packed 32 (byteBits b) = BitVec.ofNat 32 b.toNat := by
  apply BitVec.eq_of_getLsbD_eq
  intro i hi
  rw [packed_getLsbD _ hi, BitVec.getLsbD_ofNat]
  by_cases hbyte : i < 8
  · simp [byteBits, hbyte, hi]
  · have hpow : 2^8 ≤ 2^i := Nat.pow_le_pow_right (by omega) (by omega)
    simp [byteBits, hbyte, Nat.testBit_lt_two_pow (b.toNat_lt.trans_le hpow)]

/-- The entries of the table. -/
theorem crc32Tab_eq :
    ∀ i < 256, crc32Tab.getD i 0 = (lfsr crc32Poly)^[8] (BitVec.ofNat 32 i) := by
  decide +kernel

/-- A word is its low byte and the rest. -/
theorem low_xor_high (x : Word) : (x &&& 0xFF) ^^^ (x &&& ~~~0xFF) = x := by
  apply BitVec.eq_of_getLsbD_eq
  intro i _
  simp only [BitVec.getLsbD_xor, BitVec.getLsbD_and, BitVec.getLsbD_not]
  cases x.getLsbD i <;> cases (0xFF : Word).getLsbD i <;> simp [*]

theorem mask_getLsbD (i : ℕ) : (0xFF : Word).getLsbD i = decide (i < 8) := by
  have hmask : (0xFF : Word) = BitVec.ofNat 32 (2^8-1) := rfl
  rw [hmask, BitVec.getLsbD_ofNat, Nat.testBit_two_pow_sub_one]
  by_cases hi : i < 8
  · simp [hi, hi.trans (show 8 < 32 by decide)]
  · simp [hi]

/-- One byte of the loop is eight shifts of the register. -/
theorem crc32Step_eq (crc : Word) (b : UInt8) :
    crc32Step crc b = (byteBits b).foldl (feed crc32Poly) crc := by
  rw [foldl_feed _ _ _ (by simp), packed_byteBits, byteBits_length]
  set x := crc ^^^ BitVec.ofNat 32 b.toNat with hx
  have hlow : (x &&& 0xFF).toNat < 256 := by
    rw [BitVec.toNat_and]
    exact Nat.and_lt_two_pow _ (by decide : (0xFF : Word).toNat < 2^8)
  have hclear : ∀ i < 8, (x &&& ~~~0xFF).getLsbD i = false := by
    intro i hi
    simp only [BitVec.getLsbD_and, BitVec.getLsbD_not, mask_getLsbD, hi, decide_true,
      Bool.not_true, Bool.and_false]
  have hshift : (x &&& ~~~0xFF) >>> 8 = crc >>> 8 := by
    apply BitVec.eq_of_getLsbD_eq
    intro i hi
    have hpow : 2^8 ≤ 2^(8+i) := Nat.pow_le_pow_right (by omega) (by omega)
    have hb : b.toNat.testBit (8+i) = false :=
      Nat.testBit_lt_two_pow (b.toNat_lt.trans_le hpow)
    by_cases hin : 8+i < 32
    · have hout : ¬8+i < 8 := by omega
      simp only [BitVec.getLsbD_ushiftRight, BitVec.getLsbD_and, BitVec.getLsbD_not, hx,
        BitVec.getLsbD_xor, BitVec.getLsbD_ofNat, mask_getLsbD, hb, hin, hout, decide_true,
        decide_false, Bool.not_false, Bool.and_true, Bool.and_false, Bool.xor_false]
    · simp only [BitVec.getLsbD_ushiftRight, BitVec.getLsbD_of_ge _ _ (Nat.le_of_not_lt hin)]
  calc crc32Step crc b
      = (lfsr crc32Poly)^[8] (x &&& 0xFF) ^^^ (crc >>> 8) := by
        rw [crc32Step, ← hx, crc32Tab_eq _ hlow, BitVec.ofNat_toNat, BitVec.setWidth_eq]
    _ = (lfsr crc32Poly)^[8] ((x &&& 0xFF) ^^^ (x &&& ~~~0xFF)) := by
        rw [lfsr_iterate_xor, lfsr_iterate_of_clear _ hclear, hshift]
    _ = (lfsr crc32Poly)^[8] x := by rw [low_xor_high]

theorem foldl_crc32Step (buf : List UInt8) (crc : Word) :
    buf.foldl crc32Step crc = (bufBits buf).foldl (feed crc32Poly) crc := by
  induction buf generalizing crc with
  | nil => rfl
  | cons b buf ih => rw [List.foldl_cons, ih, crc32Step_eq, ← List.foldl_append]; rfl

theorem crc32Inc_eq_bits (buf : List UInt8) (crc : Word) :
    crc32Inc buf crc = ~~~((bufBits buf).foldl (feed crc32Poly) (~~~crc)) := by
  have hones (x : Word) : x ^^^ 0xFFFFFFFF = ~~~x := BitVec.xor_allOnes
  rw [crc32Inc, foldl_crc32Step, hones, hones]

/-- Two buffers that differ in at most 32 consecutive bits have different checksums. -/
theorem crc32_eq_iff {buf buf' : List UInt8} (h : Within 32 (bufBits buf) (bufBits buf')) :
    crc32 buf = crc32 buf' ↔ buf = buf' := by
  rw [crc32, crc32, crc32Inc_eq_bits, crc32Inc_eq_bits, BitVec.not_inj,
    foldl_feed_eq_iff (by decide) _ h, bufBits_injective.eq_iff]

/-- Fed with a buffer in any pieces, the table-driven loop computes its checksum bit by bit. -/
theorem crc32Inc_pieces (bufs : List (List UInt8)) (crc : Word) :
    bufs.foldl (fun crc buf => crc32Inc buf crc) crc =
      ~~~((bufBits bufs.flatten).foldl (feed crc32Poly) (~~~crc)) := by
  induction bufs generalizing crc with
  | nil => exact (BitVec.not_not).symm
  | cons buf bufs ih =>
    rw [List.foldl_cons, ih, crc32Inc_eq_bits, BitVec.not_not, ← List.foldl_append,
      List.flatten_cons]
    simp only [bufBits, List.flatMap_append]

end DistributedPis
