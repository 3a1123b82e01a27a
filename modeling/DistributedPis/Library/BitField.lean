import Mathlib

/-! Fields of a word: some bits next to each other that are written and read together. -/
namespace DistributedPis.Library
variable {n k : ℕ} {w : BitVec n} {v : BitVec k} {o o' : ℕ}

/-- Clear the `k` bits from bit `o` on and put `v` there. -/
def putField (o : ℕ) (v : BitVec k) (w : BitVec n) : BitVec n :=
  (w &&& ~~~((BitVec.allOnes k).setWidth n <<< o)) ||| (v.setWidth n <<< o)

theorem getLsbD_putField (i : ℕ) (hi : i < n) : (putField o v w).getLsbD i =
    if o ≤ i ∧ i < o+k then v.getLsbD (i-o) else w.getLsbD i := by
  simp only [putField, BitVec.getLsbD_or, BitVec.getLsbD_and, BitVec.getLsbD_not,
    BitVec.getLsbD_shiftLeft, BitVec.getLsbD_setWidth, BitVec.getLsbD_allOnes, hi]
  by_cases hlo : i < o
  · simp [hlo, Nat.not_le.mpr hlo]
  · by_cases hhi : i-o < k
    · have hlt : i < o+k := by omega
      have hn : i-o < n := by omega
      simp [hlo, hhi, hlt, hn, Nat.not_lt.mp hlo]
    · have hge : ¬ i < o+k := by omega
      have hout : v.getLsbD (i-o) = false := BitVec.getLsbD_of_ge _ _ (by omega)
      simp [hlo, hhi, hge, hout]

/-- The field is what was written. -/
theorem field_putField (h : o+k ≤ n) : (putField o v w).extractLsb' o k = v := by
  ext i hi
  rw [BitVec.getElem_extractLsb', getLsbD_putField _ (by omega), if_pos (by omega),
    Nat.add_sub_cancel_left, BitVec.getLsbD_eq_getElem hi]

/-- Other fields keep their values. -/
theorem field_putField_of_apart {l : ℕ} (h : o'+l ≤ n) (hapart : o+k ≤ o' ∨ o'+l ≤ o) :
    (putField o v w).extractLsb' o' l = w.extractLsb' o' l := by
  ext i hi
  rw [BitVec.getElem_extractLsb', getLsbD_putField _ (by omega), if_neg (by omega),
    BitVec.getElem_extractLsb']

end DistributedPis.Library
