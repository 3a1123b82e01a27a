import Mathlib

/-! A family of lists taken together, with multiplicity. When the whole family repeats
nothing, its members are disjoint. -/
namespace DistributedPis.Library
variable {ι α : Type*} [Fintype ι]

/-- All elements of all the lists. -/
def gather (xs : ι → List α) : Multiset α := ∑ i, (xs i : Multiset α)

theorem mem_gather {xs : ι → List α} {x : α} : x ∈ gather xs ↔ ∃ i, x ∈ xs i := by
  simp [gather, Multiset.mem_sum]

variable [DecidableEq ι]

/-- Replacing one member trades its elements for the new ones. -/
theorem gather_update (xs : ι → List α) (i : ι) (ys : List α) :
    gather (Function.update xs i ys) + xs i = gather xs + ys := by
  have hsplit := Finset.add_sum_erase Finset.univ (fun j => (xs j : Multiset α))
    (Finset.mem_univ i)
  have hsplit' := Finset.add_sum_erase Finset.univ
    (fun j => (Function.update xs i ys j : Multiset α)) (Finset.mem_univ i)
  have hrest : ∑ j ∈ Finset.univ.erase i, (Function.update xs i ys j : Multiset α) =
      ∑ j ∈ Finset.univ.erase i, (xs j : Multiset α) := by
    refine Finset.sum_congr rfl fun j hj => ?_
    rw [Function.update_of_ne (Finset.ne_of_mem_erase hj)]
  rw [gather, gather, ← hsplit, ← hsplit', hrest, Function.update_self]
  ac_rfl

theorem gather_cons (xs : ι → List α) (i : ι) (x : α) :
    gather (Function.update xs i (x :: xs i)) = x ::ₘ gather xs := by
  have h := gather_update xs i (x :: xs i)
  rw [← Multiset.cons_coe, Multiset.add_cons, ← Multiset.cons_add] at h
  exact add_right_cancel h

theorem gather_concat (xs : ι → List α) (i : ι) (x : α) :
    gather (Function.update xs i (xs i ++ [x])) = x ::ₘ gather xs := by
  have h := gather_update xs i (xs i ++ [x])
  rw [← Multiset.coe_add, add_comm (xs i : Multiset α), ← add_assoc] at h
  rw [add_right_cancel h, Multiset.coe_singleton, add_comm, Multiset.singleton_add]

theorem gather_tail (xs : ι → List α) {i : ι} {x : α} {rest : List α} (h : xs i = x::rest) :
    gather xs = x ::ₘ gather (Function.update xs i rest) := by
  have hu := gather_update xs i rest
  rw [h, ← Multiset.cons_coe, Multiset.add_cons, ← Multiset.cons_add] at hu
  exact (add_right_cancel hu).symm

theorem gather_nodup_disjoint {xs : ι → List α} (h : (gather xs).Nodup) {i j : ι} (hne : i ≠ j)
    {x : α} (hi : x ∈ xs i) : x ∉ xs j := by
  intro hj
  have hsplit := gather_update xs i []
  rw [Multiset.coe_nil, add_zero] at hsplit
  rw [← hsplit] at h
  have hmem : x ∈ gather (Function.update xs i []) :=
    mem_gather.mpr ⟨j, by rwa [Function.update_of_ne hne.symm]⟩
  exact Multiset.disjoint_left.mp (Multiset.nodup_add.mp h).2.2 hmem hi

end DistributedPis.Library
