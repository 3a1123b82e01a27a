import Mathlib

/-! A register of flags: raising adds to the set of the pending ones, and writing takes those out
that are one in the written word. -/
namespace DistributedPis.Library
variable {w : ℕ} {r v : BitVec w} {i : ℕ}

/-- The flags that are set in a word. -/
def pending (r : BitVec w) : Finset ℕ := (Finset.range w).filter fun i => r.getLsbD i = true

/-- The flags of `v` are raised. -/
def raise (r v : BitVec w) : BitVec w := r ||| v

/-- What a write of `v` leaves of a register that is cleared by writing ones to it. -/
def acknowledge (r v : BitVec w) : BitVec w := r &&& ~~~v

@[simp] theorem mem_pending : i ∈ pending r ↔ r.getLsbD i = true := by
  simp only [pending, Finset.mem_filter, Finset.mem_range, and_iff_right_iff_imp]
  exact BitVec.lt_of_getLsbD

@[simp] theorem pending_zero : pending (0#w) = ∅ := by
  ext i
  simp

/-- The word of one flag. -/
theorem pending_twoPow (hi : i < w) : pending (BitVec.twoPow w i) = {i} := by
  ext j
  rw [mem_pending, BitVec.getLsbD_twoPow, Finset.mem_singleton]
  simp [hi, eq_comm]

@[simp] theorem pending_raise : pending (raise r v) = pending r ∪ pending v := by
  ext i
  simp [raise]

@[simp] theorem pending_acknowledge : pending (acknowledge r v) = pending r \ pending v := by
  ext i
  simp only [acknowledge, mem_pending, Finset.mem_sdiff, BitVec.getLsbD_and, BitVec.getLsbD_not,
    Bool.and_eq_true, decide_eq_true_eq, Bool.not_eq_true']
  constructor
  · rintro ⟨hr,-,hv⟩
    exact ⟨hr, by simp [hv]⟩
  · rintro ⟨hr,hv⟩
    exact ⟨hr, BitVec.lt_of_getLsbD hr, by simpa using hv⟩

/-- Raising one flag adds it to the pending ones. -/
theorem pending_raise_twoPow (hi : i < w) :
    pending (raise r (BitVec.twoPow w i)) = insert i (pending r) := by
  rw [pending_raise, pending_twoPow hi, Finset.union_comm, Finset.insert_eq]

/-- Writing the word of one flag takes only that one out. -/
theorem pending_acknowledge_twoPow (hi : i < w) :
    pending (acknowledge r (BitVec.twoPow w i)) = (pending r).erase i := by
  rw [pending_acknowledge, pending_twoPow hi, Finset.sdiff_singleton_eq_erase]

/-- Whether a flag is set, as a test of the word masked with it. -/
theorem and_twoPow_pos (hi : i < w) :
    0#w < r &&& BitVec.twoPow w i ↔ i ∈ pending r := by
  rw [mem_pending, BitVec.and_twoPow]
  by_cases h : r.getLsbD i = true
  · simp [h, BitVec.lt_def, Nat.mod_eq_of_lt, Nat.pow_lt_pow_right, hi]
  · simp [h]

end DistributedPis.Library
