import DistributedPis.Library.Decimal
import DistributedPis.Server.CircularQueue

/-! `int_to_str` of `client.c`: the digits are stored from the lowest one on, and the text is
turned round in place. -/
namespace DistributedPis
open Library

/-- The values of the type `int`. -/
def IsInt (z : ℤ) : Prop := -2^31 ≤ z ∧ z < 2^31

/-- What becomes of `-num`. Where the negative is no `int` this is up to the compiler. -/
structure Negation where
  neg : ℤ → Option ℤ
  neg_eq : ∀ z, IsInt (-z) → neg z = some (-z)
  isInt : ∀ z w, neg z = some w → IsInt w

namespace Negation

/-- The overflow is an error. -/
def checked : Negation where
  neg z := int32 (-z)
  neg_eq _ h := if_pos h
  isInt z w h := by
    unfold int32 at h
    split at h
    · cases h
      assumption
    · cases h

/-- The machine takes the negative modulo `2^32`. -/
def wrapped : Negation where
  neg z := some ((-z).bmod (2^32))
  neg_eq z h := by
    unfold IsInt at h
    rw [Int.bmod_eq_of_le] <;> omega
  isInt z w h := by
    cases h
    unfold IsInt
    have hlo := Int.le_bmod (x := -z) (m := 2^32) (by decide)
    have hhi := Int.bmod_lt (x := -z) (m := 2^32) (by decide)
    omega

end Negation

/-- The loop of `reverse`; `stop` is the `end` of the source. -/
def reverseLoop (str : ℕ) : ℕ → ℕ → ℕ → (ℕ → UInt8) → Option (ℕ → UInt8)
  | 0, _, _, _ => none
  | fuel+1, start, stop, m =>
    if start < stop then
      let temp := m (str+start)
      let m := write8 m (str+start) (m (str+stop))
      let m := write8 m (str+stop) temp
      reverseLoop str fuel (start+1) (stop-1) m
    else some m

def reverse (fuel : ℕ) (m : ℕ → UInt8) (str length : ℕ) : Option (ℕ → UInt8) :=
  -- no round is made for a length of zero, where `end` would be -1
  reverseLoop str fuel 0 (length-1) m

/-- `num % 10 + '0'`, as a `char`. -/
def charOf (num : ℤ) : UInt8 := UInt8.ofInt (num.tmod 10 + 48)

/-- The loop of `int_to_str` over the digits. -/
def digitLoop (str : ℕ) : ℕ → ℤ → ℕ → (ℕ → UInt8) → Option (ℕ × (ℕ → UInt8))
  | 0, _, _, _ => none
  | fuel+1, num, i, m =>
    if num ≠ 0 then digitLoop str fuel (num.tdiv 10) (i+1) (write8 m (str+i) (charOf num))
    else some (i,m)

def intToStr (neg : Negation) (fuel : ℕ) (m : ℕ → UInt8) (str : ℕ) (num : ℤ) :
    Option (ℕ × (ℕ → UInt8)) :=
  if num = 0 then some (1, write8 (write8 m str 48) (str+1) 0)
  else do
    let isNegative : Bool := num < 0
    let num ← (if num < 0 then neg.neg num else some num)
    let (i,m) ← digitLoop str fuel num 0 m
    let (i,m) := if isNegative then (i+1, write8 m (str+i) 45) else (i,m)
    let m := write8 m (str+i) 0
    let m ← reverse fuel m str i
    some (i,m)

/-- The call returns the length of a decimal number that denotes `num`, and has left it with a
NUL behind it at `str`. -/
def Converts (neg : Negation) (fuel : ℕ) (m : ℕ → UInt8) (str : ℕ) (num : ℤ) : Prop :=
  ∃ text m', intToStr neg fuel m str num = some (text.length,m') ∧
    block m' str (text.length+1) = text ++ [0] ∧ IsDecimal text ∧ parseDecimal text = some num

section Loops
variable {fuel str : ℕ}

/-- Each round swaps the outer bytes of what is left to be turned round. -/
theorem reverseLoop_eq {start stop : ℕ} {m : ℕ → UInt8} (hfuel : stop-start+1 < 2*fuel) :
    reverseLoop str fuel start stop m = some (mirror m (str+start) (str+stop)) := by
  induction fuel generalizing start stop m with
  | zero => omega
  | succ fuel ih =>
    rw [reverseLoop]
    by_cases hlt : start < stop
    · have hstop : str+(stop-1) = str+stop-1 := by omega
      rw [if_pos hlt, ih (by omega), hstop, ← Nat.add_assoc, mirror_swap (by omega)]
    · rw [if_neg hlt, mirror_of_le (by omega)]

theorem reverse_fill {m : ℕ → UInt8} {bs : List UInt8} (hfuel : bs.length < 2*fuel) :
    reverse fuel (fill m str bs) str bs.length = some (fill m str bs.reverse) := by
  rw [reverse, reverseLoop_eq (by omega), Nat.add_zero, mirror_fill]

/-- What the loop over the digits stores for `n` or, with the sign -1, for `-n`. -/
def storedDigits (sign : ℤ) (n : ℕ) : List UInt8 :=
  (Nat.digits 10 n).map fun d : ℕ => UInt8.ofInt (sign*d+48)

theorem toNat_ofInt (z : ℤ) : (UInt8.ofInt z).toNat = (z % 256).toNat := by
  rw [UInt8.ofInt, UInt8.toNat_ofNat']
  omega

theorem storedDigits_zero (sign : ℤ) : storedDigits sign 0 = [] := rfl

theorem storedDigits_succ {n : ℕ} (hn : n ≠ 0) (sign : ℤ) :
    storedDigits sign n = UInt8.ofInt (sign*(n%10 : ℕ)+48) :: storedDigits sign (n/10) := by
  rw [storedDigits, Nat.digits_def' (by decide) (Nat.pos_of_ne_zero hn), List.map_cons,
    storedDigits]

theorem storedDigits_length (sign : ℤ) {n k : ℕ} (h : n < 10^k) :
    (storedDigits sign n).length ≤ k := by
  rw [storedDigits, List.length_map]
  exact (Nat.digits_length_le_iff (by decide) n).mpr h

/-- Truncated division by ten takes the lowest digit off and keeps the sign. -/
theorem tdiv_sign {sign : ℤ} (hsign : sign = 1 ∨ sign = -1) (n : ℕ) :
    (sign*n).tdiv 10 = sign*(n/10 : ℕ) ∧ (sign*n).tmod 10 = sign*(n%10 : ℕ) := by
  have hpos : (n : ℤ).tdiv 10 = (n/10 : ℕ) ∧ (n : ℤ).tmod 10 = (n%10 : ℕ) := ⟨rfl,rfl⟩
  rcases hsign with rfl | rfl
  · simpa using hpos
  · rw [Int.neg_one_mul, Int.neg_tdiv, Int.neg_tmod, hpos.1, hpos.2]
    omega

theorem digitLoop_eq {sign : ℤ} (hsign : sign = 1 ∨ sign = -1) {n i : ℕ} {m : ℕ → UInt8}
    (hfuel : (storedDigits sign n).length < fuel) :
    digitLoop str fuel (sign*n) i m =
      some (i + (storedDigits sign n).length, fill m (str+i) (storedDigits sign n)) := by
  induction fuel generalizing n i m with
  | zero => exact absurd hfuel (Nat.not_lt_zero _)
  | succ fuel ih =>
    rw [digitLoop]
    by_cases hn : n = 0
    · subst hn
      simp [storedDigits_zero]
    · have hne : sign*(n : ℤ) ≠ 0 := by
        rcases hsign with rfl | rfl <;> omega
      obtain ⟨hdiv,hmod⟩ := tdiv_sign hsign n
      rw [storedDigits_succ hn, List.length_cons] at hfuel ⊢
      rw [if_pos hne, hdiv, charOf, hmod, ih (by omega), write8, ← Nat.add_assoc]
      have hfill := fill_fill m (str+i) [UInt8.ofInt (sign*(n%10 : ℕ)+48)]
        (storedDigits sign (n/10))
      rw [List.length_singleton, List.singleton_append] at hfill
      rw [hfill]
      congr 2
      omega

end Loops

/-- The text that a call leaves for `num`, when the digits are stored with that sign for `n`. -/
def textOf (num sign : ℤ) (n : ℕ) : List UInt8 :=
  (if num < 0 then [45] else []) ++ (storedDigits sign n).reverse

section Call
variable {neg : Negation} {fuel str n : ℕ} {m : ℕ → UInt8} {num sign : ℤ}

theorem block_terminated (m : ℕ → UInt8) (str : ℕ) (text : List UInt8) :
    block (fill m str (text ++ [0])) str (text.length+1) = text ++ [0] := by
  have hself := block_fill_self m str (text ++ [0])
  rwa [List.length_append, List.length_singleton] at hself

/-- Turning round what lies before the NUL. -/
theorem reverse_terminated {raw : List UInt8} (hfuel : raw.length < 2*fuel) :
    reverse fuel (write8 (fill m str raw) (str+raw.length) 0) str raw.length =
      some (fill m str (raw.reverse ++ [0])) := by
  rw [write8, fill_comm m le_rfl, reverse_fill hfuel, ← fill_comm m (by simp),
    ← List.length_reverse, fill_fill]

theorem intToStr_eq (hnum : num ≠ 0) (hsign : sign = 1 ∨ sign = -1)
    (hneg : (if num < 0 then neg.neg num else some num) = some (sign*n)) (hn : n < 10^10) :
    intToStr neg (fuel+11) m str num =
      some ((textOf num sign n).length, fill m str (textOf num sign n ++ [0])) := by
  have hlen := storedDigits_length sign hn
  have hdigits : digitLoop str (fuel+11) (sign*n) 0 m =
      some ((storedDigits sign n).length, fill m str (storedDigits sign n)) := by
    rw [digitLoop_eq hsign (by omega), Nat.zero_add, Nat.add_zero]
  obtain ⟨raw,hraw⟩ : ∃ raw, raw = storedDigits sign n ++ (if num < 0 then [45] else []) := ⟨_,rfl⟩
  have htext : textOf num sign n = raw.reverse := by
    rw [hraw, textOf, List.reverse_append]
    split <;> rfl
  have hrawlen : raw.length ≤ 11 := by
    rw [hraw, List.length_append]
    split <;> simp <;> omega
  have hsigned : (if num < 0 then
      ((storedDigits sign n).length + 1, write8 (fill m str (storedDigits sign n))
        (str + (storedDigits sign n).length) 45)
      else ((storedDigits sign n).length, fill m str (storedDigits sign n))) =
        (raw.length, fill m str raw) := by
    rw [hraw]
    split
    · rw [write8, fill_fill, List.length_append, List.length_singleton]
    · rw [List.append_nil]
  rw [intToStr, if_neg hnum, hneg]
  simp only [Option.bind_eq_bind, Option.bind_some, hdigits, decide_eq_true_eq, hsigned]
  rw [reverse_terminated (by omega), Option.bind_some, htext, List.length_reverse]

theorem storedDigits_one (n : ℕ) : storedDigits 1 n = lowFirst n := by
  refine List.map_congr_left fun d _ => UInt8.toNat_inj.mp ?_
  rw [toNat_ofInt, digitChar, UInt8.toNat_ofNat']
  omega

theorem textOf_one (hnum : num ≠ 0) : textOf num 1 num.natAbs = decimal num := by
  rw [textOf, storedDigits_one, decimal, if_neg hnum]

/-- On every `int` but the lowest one the call leaves the text of the number. -/
theorem intToStr_decimal (neg : Negation) (fuel : ℕ) (m : ℕ → UInt8) (str : ℕ)
    (hint : IsInt num) (hmin : num ≠ -2^31) :
    intToStr neg (fuel+11) m str num =
      some ((decimal num).length, fill m str (decimal num ++ [0])) := by
  by_cases hnum : num = 0
  · have hzero : decimal num = [48] := by rw [decimal, if_pos hnum]
    rw [intToStr, if_pos hnum, hzero, ← fill_fill]
    rfl
  · have hneg : (if num < 0 then neg.neg num else some num) = some (1*(num.natAbs : ℤ)) := by
      unfold IsInt at hint
      split
      · rw [neg.neg_eq num (by unfold IsInt; omega)]
        congr 1
        omega
      · congr 1
        omega
    rw [← textOf_one hnum]
    unfold IsInt at hint
    exact intToStr_eq hnum (Or.inl rfl) hneg (by omega)

/-- The digits of a negative number are stored as bytes before `0`. -/
theorem parseNat_storedDigits_neg (hn : n ≠ 0) : parseNat (storedDigits (-1) n).reverse = none := by
  have hne : Nat.digits 10 n ≠ [] := Nat.digits_ne_nil_iff_ne_zero.mpr hn
  obtain ⟨d,hd⟩ : ∃ d, d = (Nat.digits 10 n).getLast hne := ⟨_,rfl⟩
  have hpos : d ≠ 0 := hd ▸ Nat.getLast_digit_ne_zero 10 hn
  have hmem : d ∈ Nat.digits 10 n := hd ▸ List.getLast_mem hne
  have hlt : d < 10 := Nat.digits_lt_base (by decide) hmem
  rw [parseNat, if_neg]
  rintro ⟨-,hall⟩
  have hbyte : UInt8.ofInt (-1*(d : ℤ)+48) ∈ storedDigits (-1) n := List.mem_map.mpr ⟨d,hmem,rfl⟩
  have hlow := (hall _ (List.mem_reverse.mpr hbyte)).1
  rw [toNat_ofInt] at hlow
  omega

theorem parseNat_storedDigits {k : ℕ} (hsign : sign = 1 ∨ sign = -1)
    (h : parseNat (storedDigits sign n).reverse = some k) : sign*n = k := by
  by_cases hn : n = 0
  · rw [hn, storedDigits_zero] at h
    cases h
  · rcases hsign with rfl | rfl
    · rw [storedDigits_one, parseNat_lowFirst hn] at h
      cases h
      omega
    · rw [parseNat_storedDigits_neg hn] at h
      cases h

/-- Whatever becomes of the negative of the lowest `int`, the text does not denote that number. -/
theorem not_converts_min : ¬ Converts neg (fuel+11) m str (-2^31) := by
  rintro ⟨text,m',hcall,hblock,-,hparse⟩
  cases hneg : neg.neg (-2^31) with
  | none =>
    rw [intToStr, if_neg (by decide), if_pos (by decide), hneg] at hcall
    cases hcall
  | some w =>
    have hint := neg.isInt _ _ hneg
    unfold IsInt at hint
    obtain ⟨sign,hsign,hw⟩ : ∃ sign : ℤ, (sign = 1 ∨ sign = -1) ∧ w = sign*w.natAbs := by
      rcases Int.le_total 0 w with h | h
      · exact ⟨1, Or.inl rfl, by omega⟩
      · exact ⟨-1, Or.inr rfl, by omega⟩
    rw [intToStr_eq (by decide) hsign (by rw [if_pos (by decide), hneg, ← hw]) (by omega)] at hcall
    obtain ⟨hlen,rfl⟩ := Prod.mk.inj (Option.some_inj.mp hcall)
    have hself := block_terminated m str (textOf (-2^31) sign w.natAbs)
    rw [hlen, hblock] at hself
    rw [List.append_cancel_right hself, textOf, if_pos (by decide), List.singleton_append,
      parseDecimal_minus] at hparse
    obtain ⟨k,hk,hval⟩ := Option.map_eq_some_iff.mp hparse
    have hk' := parseNat_storedDigits hsign hk
    omega

end Call

/-- The text of a number denotes it for every `int` but the lowest one. -/
theorem converts_iff (neg : Negation) (fuel : ℕ) (m : ℕ → UInt8) (str : ℕ) (num : Int32) :
    Converts neg (fuel+11) m str num.toInt ↔ num ≠ Int32.minValue := by
  constructor
  · rintro h rfl
    rw [Int32.toInt_minValue] at h
    exact not_converts_min h
  · intro hne
    have hint : IsInt num.toInt := ⟨num.le_toInt,num.toInt_lt⟩
    have hmin : num.toInt ≠ -2^31 := by
      rw [← Int32.toInt_minValue]
      exact fun h => hne (Int32.toInt_inj.mp h)
    exact ⟨_,_,intToStr_decimal neg fuel m str hint hmin,block_terminated m str _,
      isDecimal_decimal _,parseDecimal_decimal _⟩

/-- A machine that wraps around leaves `-./,),(-*,(` for the lowest `int`. -/
theorem intToStr_min :
    (intToStr .wrapped 11 (fun _ => 0) 0 Int32.minValue.toInt).map
        (fun r => (r.1, block r.2 0 12)) =
      some (11, [45,46,47,44,41,44,40,45,42,44,40,0]) ∧
    ¬ Converts .wrapped 11 (fun _ => 0) 0 Int32.minValue.toInt ∧
    ¬ Converts .checked 11 (fun _ => 0) 0 Int32.minValue.toInt := by
  refine ⟨by decide +kernel, ?_, ?_⟩
  · rw [Int32.toInt_minValue]
    exact not_converts_min
  · rw [Int32.toInt_minValue]
    exact not_converts_min

end DistributedPis
