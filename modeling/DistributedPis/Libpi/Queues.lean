import DistributedPis.Libpi.Queue
import DistributedPis.Library.Gather

/-! Several queues over the same nodes. They share the next pointers, so an operation on one
of them leaves the others alone only while no node is on two of them. -/
namespace DistributedPis
open Library
variable {ι α : Type*} [Fintype ι] [DecidableEq ι]

/-- The headers `q` stand for the lists `xs`, and no node is there twice. -/
structure AreQueues (next : α → Option α) (q : ι → Queue α) (xs : ι → List α) : Prop where
  each : ∀ i, IsQueue next (q i) (xs i)
  nodup : (gather xs).Nodup

namespace AreQueues
variable {next : α → Option α} {q : ι → Queue α} {xs : ι → List α} {i j : ι} {e : α}

omit [DecidableEq ι] in
lemma not_mem (he : e ∉ gather xs) (j : ι) : e ∉ xs j := fun h => he (mem_gather.mpr ⟨j,h⟩)

theorem pop {rest : List α} (h : AreQueues next q xs) (hi : xs i = e::rest) :
    ((q i).pop next).1 = some e ∧
      AreQueues next (Function.update q i ((q i).pop next).2) (Function.update xs i rest) := by
  have hpop := IsQueue.pop (hi ▸ h.each i)
  refine ⟨hpop.1, fun j => ?_, ?_⟩
  · by_cases hj : j = i
    · subst hj
      simpa using hpop.2
    · simpa [hj] using h.each j
  · have hnd := h.nodup
    rw [gather_tail xs hi] at hnd
    exact (Multiset.nodup_cons.mp hnd).2

variable [DecidableEq α]

theorem push (h : AreQueues next q xs) (i : ι) (he : e ∉ gather xs) :
    AreQueues ((q i).push next e).1 (Function.update q i ((q i).push next e).2)
      (Function.update xs i (e :: xs i)) := by
  refine ⟨fun j => ?_, ?_⟩
  · by_cases hj : j = i
    · subst hj
      simpa using (h.each j).push (not_mem he j)
    · simp only [ne_eq, hj, not_false_eq_true, Function.update_of_ne]
      exact (h.each j).congr fun x hx => push_next_of_ne next (q i) e
        (ne_of_mem_of_not_mem hx (not_mem he j))
  · rw [gather_cons]
    exact Multiset.nodup_cons.mpr ⟨he,h.nodup⟩

theorem append (h : AreQueues next q xs) (i : ι) (he : e ∉ gather xs) :
    AreQueues ((q i).append next e).1 (Function.update q i ((q i).append next e).2)
      (Function.update xs i (xs i ++ [e])) := by
  refine ⟨fun j => ?_, ?_⟩
  · by_cases hj : j = i
    · subst hj
      simpa using (h.each j).append (not_mem he j)
    · simp only [ne_eq, hj, not_false_eq_true, Function.update_of_ne]
      refine (h.each j).congr fun x hx => append_next_of_ne next (q i) e
        (ne_of_mem_of_not_mem hx (not_mem he j)) fun htail => ?_
      -- the old tail of queue i would be on queue j too
      rw [(h.each i).tail] at htail
      exact gather_nodup_disjoint h.nodup hj hx (List.mem_of_getLast? htail)
  · rw [gather_concat]
    exact Multiset.nodup_cons.mpr ⟨he,h.nodup⟩

end AreQueues
end DistributedPis
