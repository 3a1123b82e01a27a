import Mathlib

/-! Decimal numbers as texts of bytes: how a number is written, and what a text denotes. -/
namespace DistributedPis.Library

/-- The byte of a digit. -/
def digitChar (d : ℕ) : UInt8 := UInt8.ofNat (48+d)

/-- A byte from `0` to `9`. -/
def IsDigit (b : UInt8) : Prop := 48 ≤ b.toNat ∧ b.toNat < 58

instance (b : UInt8) : Decidable (IsDigit b) :=
  inferInstanceAs (Decidable (48 ≤ b.toNat ∧ b.toNat < 58))

/-- Digits without leading zeros, behind a sign if there is one. -/
def IsDecimal (text : List UInt8) : Prop :=
  ∃ sign ds, text = sign ++ ds ∧ (sign = [] ∨ sign = [45]) ∧ ds ≠ [] ∧ (∀ b ∈ ds, IsDigit b) ∧
    (ds.head? = some 48 → ds = [48])

/-- The number that digits denote. -/
def parseNat (ds : List UInt8) : Option ℕ :=
  if ds ≠ [] ∧ ∀ b ∈ ds, IsDigit b then some (ds.foldl (fun n b => 10*n + (b.toNat-48)) 0)
  else none

/-- The number that a text denotes. -/
def parseDecimal : List UInt8 → Option ℤ
  | [] => none
  | b::bs =>
    if b = 45 then (parseNat bs).map fun n : ℕ => -(n : ℤ)
    else (parseNat (b::bs)).map fun n : ℕ => (n : ℤ)

/-- The digits of a number as bytes, the lowest one first, and none for zero. -/
def lowFirst (n : ℕ) : List UInt8 := (Nat.digits 10 n).map digitChar

/-- The text of a number. -/
def decimal (z : ℤ) : List UInt8 :=
  if z = 0 then [48] else (if z < 0 then [45] else []) ++ (lowFirst z.natAbs).reverse

theorem digitChar_toNat {d : ℕ} (h : d < 10) : (digitChar d).toNat = 48+d := by
  rw [digitChar, UInt8.toNat_ofNat']
  omega

theorem isDigit_digitChar {d : ℕ} (h : d < 10) : IsDigit (digitChar d) := by
  rw [IsDigit, digitChar_toNat h]
  omega

theorem isDigit_lowFirst {n : ℕ} : ∀ b ∈ lowFirst n, IsDigit b := by
  intro b hb
  obtain ⟨d,hd,rfl⟩ := List.mem_map.mp hb
  exact isDigit_digitChar (Nat.digits_lt_base (by decide) hd)

theorem lowFirst_ne_nil {n : ℕ} (h : n ≠ 0) : lowFirst n ≠ [] := by
  rw [lowFirst, Ne, List.map_eq_nil_iff]
  exact Nat.digits_ne_nil_iff_ne_zero.mpr h

theorem lowFirst_succ {n : ℕ} (h : n ≠ 0) : lowFirst n = digitChar (n%10) :: lowFirst (n/10) := by
  rw [lowFirst, Nat.digits_def' (by decide) (Nat.pos_of_ne_zero h), List.map_cons, lowFirst]

/-- The positional value of the digits of a number. -/
theorem foldl_lowFirst (n : ℕ) :
    (lowFirst n).reverse.foldl (fun n b => 10*n + (b.toNat-48)) 0 = n := by
  induction n using Nat.strong_induction_on with
  | _ n ih =>
    by_cases h : n = 0
    · subst h
      rfl
    · rw [lowFirst_succ h, List.reverse_cons, List.foldl_append, ih _ (by omega),
        List.foldl_cons, List.foldl_nil, digitChar_toNat (by omega)]
      omega

/-- Digits that are written as a number denote it. -/
theorem parseNat_lowFirst {n : ℕ} (h : n ≠ 0) : parseNat (lowFirst n).reverse = some n := by
  rw [parseNat, if_pos, foldl_lowFirst]
  refine ⟨by simpa using lowFirst_ne_nil h, fun b hb => ?_⟩
  exact isDigit_lowFirst b (List.mem_reverse.mp hb)

/-- The digit of the highest position is not zero. -/
theorem head?_lowFirst_reverse (n : ℕ) : (lowFirst n).reverse.head? ≠ some 48 := by
  rw [List.head?_reverse, lowFirst, List.getLast?_map]
  intro h
  obtain ⟨d,hd,hchar⟩ := Option.map_eq_some_iff.mp h
  have hn : n ≠ 0 := by
    rintro rfl
    simp at hd
  have hne : Nat.digits 10 n ≠ [] := Nat.digits_ne_nil_iff_ne_zero.mpr hn
  rw [List.getLast?_eq_some_getLast hne] at hd
  obtain rfl := Option.some_inj.mp hd
  have hlt := Nat.digits_lt_base (by decide) (List.getLast_mem hne)
  have hval := congrArg UInt8.toNat hchar
  rw [digitChar_toNat hlt] at hval
  exact Nat.getLast_digit_ne_zero 10 hn (Nat.add_left_cancel hval)

theorem parseDecimal_minus (ds : List UInt8) :
    parseDecimal (45::ds) = (parseNat ds).map fun n : ℕ => -(n : ℤ) := by
  rw [parseDecimal, if_pos rfl]

theorem parseDecimal_digits {ds : List UInt8} (h : ∀ b ∈ ds, IsDigit b) :
    parseDecimal ds = (parseNat ds).map fun n : ℕ => (n : ℤ) := by
  cases ds with
  | nil => rfl
  | cons b bs =>
    refine if_neg ?_
    rintro rfl
    exact absurd (h 45 List.mem_cons_self) (by decide)

theorem parseDecimal_decimal (z : ℤ) : parseDecimal (decimal z) = some z := by
  by_cases hz : z = 0
  · subst hz
    rw [decimal, if_pos rfl, parseDecimal_digits (by simp [IsDigit])]
    simp [parseNat, IsDigit]
  · have hdigits : ∀ b ∈ (lowFirst z.natAbs).reverse, IsDigit b :=
      fun b hb => isDigit_lowFirst b (List.mem_reverse.mp hb)
    have hnat := parseNat_lowFirst (Int.natAbs_ne_zero.mpr hz)
    rw [decimal, if_neg hz]
    by_cases hneg : z < 0
    · rw [if_pos hneg, List.singleton_append, parseDecimal_minus, hnat, Option.map_some]
      congr 1
      omega
    · rw [if_neg hneg, List.nil_append, parseDecimal_digits hdigits, hnat, Option.map_some]
      congr 1
      omega

theorem isDecimal_decimal (z : ℤ) : IsDecimal (decimal z) := by
  by_cases hz : z = 0
  · subst hz
    exact ⟨[],[48],if_pos rfl,Or.inl rfl,List.cons_ne_nil _ _,by simp [IsDigit],fun _ => rfl⟩
  · refine ⟨if z < 0 then [45] else [], (lowFirst z.natAbs).reverse, if_neg hz, ?_, ?_, ?_, ?_⟩
    · split <;> simp
    · simpa using lowFirst_ne_nil (Int.natAbs_ne_zero.mpr hz)
    · exact fun b hb => isDigit_lowFirst b (List.mem_reverse.mp hb)
    · exact fun h => absurd h (head?_lowFirst_reverse _)

end DistributedPis.Library
