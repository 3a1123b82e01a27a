import Mathlib

/-! UTF-8 from a table of lead bytes (`unicode-utf8.c`). The table ends with an entry of zeros that
is not the null pointer the loops look for, so they leave it for values without an encoding. -/
namespace DistributedPis

structure Utf where
  mask : UInt8
  lead : UInt8
  beg : ℕ
  last : ℕ

def utf : List Utf :=
  [⟨0x3f, 0x80, 0, 0⟩, ⟨0x7f, 0x00, 0, 0x7f⟩, ⟨0x1f, 0xc0, 0x80, 0x7ff⟩,
    ⟨0x0f, 0xe0, 0x800, 0xffff⟩, ⟨0x07, 0xf0, 0x10000, 0x10ffff⟩, ⟨0, 0, 0, 0⟩]

def bitsStored : ℕ := 6

/-- The length of an encoding. There is no result for -1, nor where the loop leaves the table. -/
def codepointLen (cp : ℕ) : Option ℕ :=
  (utf.findIdx? fun u => u.beg ≤ cp ∧ cp ≤ u.last).filter (· ≤ 4)

def utf8Len (ch : UInt8) : Option ℕ :=
  (utf.findIdx? fun u => ch &&& ~~~u.mask = u.lead).filter (· ≤ 4)

/-- The length is 0 for 0, and then the first shift is negative. -/
def toUtf8 (cp : ℕ) : Option (List UInt8) := do
  let bytes ← codepointLen cp
  let u ← utf[bytes]?
  if bytes = 0 then none
  else
    some ((UInt8.ofNat (cp >>> (bitsStored*(bytes-1))) &&& u.mask ||| u.lead) ::
      (List.range (bytes-1)).map fun i =>
        UInt8.ofNat (cp >>> (bitsStored*(bytes-2-i))) &&& 0x3f ||| 0x80)

def toCp (chr : List UInt8) : Option ℕ := do
  let bytes ← utf8Len (chr.getD 0 0)
  let u ← utf[bytes]?
  if bytes = 0 then none
  else
    some ((List.range (bytes-1)).foldl (fun codep i =>
        codep ||| (chr.getD (i+1) 0 &&& 0x3f).toNat <<< (bitsStored*(bytes-2-i)))
      ((chr.getD 0 0 &&& u.mask).toNat <<< (bitsStored*(bytes-1))))

/-- The encoding of a number, also of one that is no character. -/
def utf8Bytes (cp : ℕ) : List UInt8 :=
  if cp ≤ 0x7f then [UInt8.ofNat cp]
  else if cp ≤ 0x7ff then [UInt8.ofNat (cp/64 % 32 + 0xc0), UInt8.ofNat (cp % 64 + 0x80)]
  else if cp ≤ 0xffff then
    [UInt8.ofNat (cp/4096 % 16 + 0xe0), UInt8.ofNat (cp/64 % 64 + 0x80),
      UInt8.ofNat (cp % 64 + 0x80)]
  else
    [UInt8.ofNat (cp/262144 % 8 + 0xf0), UInt8.ofNat (cp/4096 % 64 + 0x80),
      UInt8.ofNat (cp/64 % 64 + 0x80), UInt8.ofNat (cp % 64 + 0x80)]

theorem utf8Bytes_char (c : Char) : utf8Bytes c.toNat = String.utf8EncodeChar c := rfl

section Bytes
variable {cp x j a : ℕ}

theorem exponent_le (h : 2^j*(a+1) ≤ 256) : j ≤ 8 := by
  have hle : 2^j ≤ 2^8 := (Nat.le_mul_of_pos_right _ (Nat.succ_pos a)).trans h
  exact (Nat.pow_le_pow_iff_right Nat.one_lt_two).mp hle

theorem mask_toNat (x : ℕ) (hj : j ≤ 8) :
    (UInt8.ofNat x &&& UInt8.ofNat (2^j-1)).toNat = x % 2^j := by
  have hpos := Nat.two_pow_pos j
  have hle : 2^j ≤ 2^8 := Nat.pow_le_pow_right Nat.two_pos hj
  rw [UInt8.toNat_and, UInt8.toNat_ofNat', UInt8.toNat_ofNat',
    Nat.mod_eq_of_lt (show 2^j-1 < 2^8 by omega), Nat.and_two_pow_sub_one_eq_mod,
    Nat.mod_mod_of_dvd _ (Nat.pow_dvd_pow 2 hj)]

/-- A mask and a lead that do not overlap. -/
theorem masked_lead (x : ℕ) (h : 2^j*(a+1) ≤ 256) :
    UInt8.ofNat x &&& UInt8.ofNat (2^j-1) ||| UInt8.ofNat (2^j*a) =
      UInt8.ofNat (x % 2^j + 2^j*a) := by
  have hlt := Nat.mod_lt x (Nat.two_pow_pos j)
  rw [Nat.mul_succ] at h
  apply UInt8.toNat_inj.mp
  rw [UInt8.toNat_or, mask_toNat x (exponent_le (a := a) h), UInt8.toNat_ofNat',
    UInt8.toNat_ofNat', Nat.mod_eq_of_lt (show 2^j*a < 2^8 by omega), Nat.or_comm,
    ← Nat.two_pow_add_eq_or_of_lt hlt, Nat.mod_eq_of_lt (show x % 2^j + 2^j*a < 2^8 by omega),
    Nat.add_comm]

/-- The mask takes the lead away again. -/
theorem unmasked_lead (x : ℕ) (h : 2^j*(a+1) ≤ 256) :
    (UInt8.ofNat (x % 2^j + 2^j*a) &&& UInt8.ofNat (2^j-1)).toNat = x % 2^j := by
  rw [mask_toNat _ (exponent_le h), Nat.add_mul_mod_self_left, Nat.mod_mod]

theorem codepointLen_eq (h : 1 ≤ cp) (h' : cp ≤ 0x10ffff) : codepointLen cp =
    some (if cp ≤ 0x7f then 1 else if cp ≤ 0x7ff then 2 else if cp ≤ 0xffff then 3 else 4) := by
  have h0 : ¬cp = 0 := by omega
  unfold codepointLen utf
  simp only [List.findIdx?_cons, List.findIdx?_nil]
  by_cases h1 : cp ≤ 0x7f
  · simp [h0, h1]
  by_cases h2 : cp ≤ 0x7ff
  · have hlo : 0x80 ≤ cp := by omega
    simp [h0, h1, h2, hlo]
  by_cases h3 : cp ≤ 0xffff
  · have hlo : 0x800 ≤ cp := by omega
    simp [h0, h1, h2, h3, hlo]
  · have hlo : 0x10000 ≤ cp := by omega
    simp [h0, h1, h2, h3, hlo, h']

/-- The bytes behind the first one. -/
theorem tail_byte (x : ℕ) : UInt8.ofNat x &&& 0x3f ||| 0x80 = UInt8.ofNat (x % 64 + 0x80) :=
  masked_lead (j := 6) (a := 2) x (by omega)

/-- The encoder is the standard one. -/
theorem toUtf8_eq (h : 1 ≤ cp) (h' : cp ≤ 0x10ffff) : toUtf8 cp = some (utf8Bytes cp) := by
  have h6 : cp >>> 6 = cp/64 := Nat.shiftRight_eq_div_pow cp 6
  have h12 : cp >>> 12 = cp/4096 := Nat.shiftRight_eq_div_pow cp 12
  have h18 : cp >>> 18 = cp/262144 := Nat.shiftRight_eq_div_pow cp 18
  rw [toUtf8, codepointLen_eq h h', Option.bind_eq_bind, Option.bind_some, utf8Bytes]
  split
  · have hfirst : UInt8.ofNat (cp >>> 0) &&& 0x7f ||| 0x00 = UInt8.ofNat (cp % 2^7 + 2^7*0) :=
      masked_lead (j := 7) (a := 0) cp (by omega)
    rw [Nat.mod_eq_of_lt (by omega)] at hfirst
    exact congrArg (fun b => some [b]) hfirst
  split
  · have hfirst : UInt8.ofNat (cp >>> 6) &&& 0x1f ||| 0xc0 = UInt8.ofNat (cp/64 % 32 + 0xc0) := by
      rw [h6]
      exact masked_lead (j := 5) (a := 6) (cp/64) (by omega)
    change some [UInt8.ofNat (cp >>> 6) &&& 0x1f ||| 0xc0,
      UInt8.ofNat (cp >>> 0) &&& 0x3f ||| 0x80] = _
    rw [hfirst, tail_byte, Nat.shiftRight_zero]
  split
  · have hfirst : UInt8.ofNat (cp >>> 12) &&& 0x0f ||| 0xe0 =
        UInt8.ofNat (cp/4096 % 16 + 0xe0) := by
      rw [h12]
      exact masked_lead (j := 4) (a := 14) (cp/4096) (by omega)
    change some [UInt8.ofNat (cp >>> 12) &&& 0x0f ||| 0xe0,
      UInt8.ofNat (cp >>> 6) &&& 0x3f ||| 0x80, UInt8.ofNat (cp >>> 0) &&& 0x3f ||| 0x80] = _
    rw [hfirst, tail_byte, tail_byte, Nat.shiftRight_zero, h6]
  · have hfirst : UInt8.ofNat (cp >>> 18) &&& 0x07 ||| 0xf0 =
        UInt8.ofNat (cp/262144 % 8 + 0xf0) := by
      rw [h18]
      exact masked_lead (j := 3) (a := 30) (cp/262144) (by omega)
    change some [UInt8.ofNat (cp >>> 18) &&& 0x07 ||| 0xf0,
      UInt8.ofNat (cp >>> 12) &&& 0x3f ||| 0x80, UInt8.ofNat (cp >>> 6) &&& 0x3f ||| 0x80,
      UInt8.ofNat (cp >>> 0) &&& 0x3f ||| 0x80] = _
    rw [hfirst, tail_byte, tail_byte, tail_byte, Nat.shiftRight_zero, h6, h12]

/-- The length that a lead byte stands for. -/
theorem utf8Len_eq (h : x < 256) : utf8Len (UInt8.ofNat x) =
    if x < 0x80 then some 1 else if x < 0xc0 then some 0 else if x < 0xe0 then some 2
      else if x < 0xf0 then some 3 else if x < 0xf8 then some 4 else none := by
  have hall : ∀ n : Fin 256, utf8Len (UInt8.ofNat n) =
      if n.val < 0x80 then some 1 else if n.val < 0xc0 then some 0 else if n.val < 0xe0 then some 2
        else if n.val < 0xf0 then some 3 else if n.val < 0xf8 then some 4 else none := by
    decide +kernel
  exact hall ⟨x, h⟩

/-- Bits below all of a number. -/
theorem or_eq_add (h : a % 2^j = 0) (h' : x < 2^j) : a ||| x = a + x := by
  obtain ⟨q,rfl⟩ := Nat.dvd_of_mod_eq_zero h
  rw [Nat.two_pow_add_eq_or_of_lt h']

theorem tail_bits (x : ℕ) : (UInt8.ofNat (x % 64 + 0x80) &&& 0x3f).toNat = x % 64 :=
  unmasked_lead (j := 6) (a := 2) x (by omega)

/-- The decoder takes back what the encoder makes, whatever comes behind it. -/
theorem toCp_utf8Bytes (h' : cp ≤ 0x10ffff) (rest : List UInt8) :
    toCp (utf8Bytes cp ++ rest) = some cp := by
  unfold utf8Bytes
  split
  · have hlen : utf8Len (UInt8.ofNat cp) = some 1 := by
      rw [utf8Len_eq (by omega), if_pos (by omega)]
    have hbits : (UInt8.ofNat cp &&& 0x7f).toNat = cp % 2^7 :=
      mask_toNat (j := 7) cp (by omega)
    rw [toCp, List.singleton_append, List.getD_cons_zero, hlen]
    change some ((UInt8.ofNat cp &&& 0x7f).toNat <<< 0) = _
    rw [hbits, Nat.shiftLeft_zero, Nat.mod_eq_of_lt (by omega)]
  split
  · have hlen : utf8Len (UInt8.ofNat (cp/64 % 32 + 0xc0)) = some 2 := by
      rw [utf8Len_eq (by omega), if_neg (by omega), if_neg (by omega), if_pos (by omega)]
    have hbits : (UInt8.ofNat (cp/64 % 32 + 0xc0) &&& 0x1f).toNat = cp/64 % 32 :=
      unmasked_lead (j := 5) (a := 6) (cp/64) (by omega)
    rw [toCp, List.cons_append, List.getD_cons_zero, hlen]
    change some ((UInt8.ofNat (cp/64 % 32 + 0xc0) &&& 0x1f).toNat <<< 6 |||
      (UInt8.ofNat (cp % 64 + 0x80) &&& 0x3f).toNat <<< 0) = _
    rw [hbits, tail_bits, Nat.shiftLeft_zero, Nat.shiftLeft_eq, or_eq_add (j := 6) (by omega)
      (by omega), Option.some.injEq]
    omega
  split
  · have hlen : utf8Len (UInt8.ofNat (cp/4096 % 16 + 0xe0)) = some 3 := by
      rw [utf8Len_eq (by omega), if_neg (by omega), if_neg (by omega), if_neg (by omega),
        if_pos (by omega)]
    have hbits : (UInt8.ofNat (cp/4096 % 16 + 0xe0) &&& 0x0f).toNat = cp/4096 % 16 :=
      unmasked_lead (j := 4) (a := 14) (cp/4096) (by omega)
    rw [toCp, List.cons_append, List.getD_cons_zero, hlen]
    change some ((UInt8.ofNat (cp/4096 % 16 + 0xe0) &&& 0x0f).toNat <<< 12 |||
      (UInt8.ofNat (cp/64 % 64 + 0x80) &&& 0x3f).toNat <<< 6 |||
      (UInt8.ofNat (cp % 64 + 0x80) &&& 0x3f).toNat <<< 0) = _
    have h12 : cp/4096 % 16 * 2^12 ||| cp/64 % 64 * 2^6 =
        cp/4096 % 16 * 2^12 + cp/64 % 64 * 2^6 := or_eq_add (j := 12) (by omega) (by omega)
    rw [hbits, tail_bits, tail_bits, Nat.shiftLeft_zero, Nat.shiftLeft_eq, Nat.shiftLeft_eq, h12,
      or_eq_add (j := 6) (by omega) (by omega), Option.some.injEq]
    omega
  · have hlen : utf8Len (UInt8.ofNat (cp/262144 % 8 + 0xf0)) = some 4 := by
      rw [utf8Len_eq (by omega), if_neg (by omega), if_neg (by omega), if_neg (by omega),
        if_neg (by omega), if_pos (by omega)]
    have hbits : (UInt8.ofNat (cp/262144 % 8 + 0xf0) &&& 0x07).toNat = cp/262144 % 8 :=
      unmasked_lead (j := 3) (a := 30) (cp/262144) (by omega)
    rw [toCp, List.cons_append, List.getD_cons_zero, hlen]
    change some ((UInt8.ofNat (cp/262144 % 8 + 0xf0) &&& 0x07).toNat <<< 18 |||
      (UInt8.ofNat (cp/4096 % 64 + 0x80) &&& 0x3f).toNat <<< 12 |||
      (UInt8.ofNat (cp/64 % 64 + 0x80) &&& 0x3f).toNat <<< 6 |||
      (UInt8.ofNat (cp % 64 + 0x80) &&& 0x3f).toNat <<< 0) = _
    have h18 : cp/262144 % 8 * 2^18 ||| cp/4096 % 64 * 2^12 =
        cp/262144 % 8 * 2^18 + cp/4096 % 64 * 2^12 := or_eq_add (j := 18) (by omega) (by omega)
    have h12 : cp/262144 % 8 * 2^18 + cp/4096 % 64 * 2^12 ||| cp/64 % 64 * 2^6 =
        cp/262144 % 8 * 2^18 + cp/4096 % 64 * 2^12 + cp/64 % 64 * 2^6 :=
      or_eq_add (j := 12) (by omega) (by omega)
    rw [hbits, tail_bits, tail_bits, tail_bits, Nat.shiftLeft_zero, Nat.shiftLeft_eq,
      Nat.shiftLeft_eq, Nat.shiftLeft_eq, h18, h12, or_eq_add (j := 6) (by omega) (by omega),
      Option.some.injEq]
    omega

end Bytes

/-- Every character but the zero byte has its standard encoding, and comes back from it. -/
theorem toUtf8_char (c : Char) (h : c.toNat ≠ 0) (rest : List UInt8) :
    toUtf8 c.toNat = some (String.utf8EncodeChar c) ∧
      toCp (String.utf8EncodeChar c ++ rest) = some c.toNat := by
  have hle : c.toNat ≤ 0x10ffff := by
    rcases c.valid with hlt | ⟨-,hlt⟩
    · exact (Nat.le_of_lt hlt).trans (by omega)
    · exact Nat.le_of_lt_succ hlt
  rw [← utf8Bytes_char]
  exact ⟨toUtf8_eq (Nat.pos_of_ne_zero h) hle, toCp_utf8Bytes hle rest⟩

/-- The euro sign takes three bytes. -/
theorem toUtf8_char_euro : toUtf8 '€'.toNat = some (String.utf8EncodeChar '€') ∧
    toCp (String.utf8EncodeChar '€' ++ [7]) = some '€'.toNat :=
  toUtf8_char '€' (by decide) [7]

end DistributedPis
