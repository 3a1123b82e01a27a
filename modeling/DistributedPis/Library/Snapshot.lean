import Mathlib

/-! Reading a growing log through copies. A copy holds the entries that were there when it was
taken and hands them out from the newest one backwards; `cnt` of them are left, `top` is the
number of the newest entry handed out so far, and `mark` that number when the copy was taken. -/
namespace DistributedPis.Library
variable {α : Type*}

/-- As long as every read is new, nothing is handed out twice: earlier copies gave out entries up to
`mark`, this one those from `cnt` on. -/
structure Unrepeated (log returned : List α) (cnt top mark : ℕ) : Prop where
  nodup : returned.Nodup
  mark_le : mark ≤ cnt
  top_le : top ≤ log.length
  old : ∀ id ∈ returned, id ∈ log.take top
  apart : ∀ id ∈ returned, id ∈ log.take mark ∨ id ∈ log.drop cnt
  newest : ∀ k id, top = k+1 → log[k]? = some id → id ∈ returned
  newestBefore : ∀ k id, mark = k+1 → log[k]? = some id → id ∈ returned

namespace Unrepeated
variable {log returned : List α} {cnt top mark k : ℕ} {id : α}

/-- Later entries change nothing. -/
lemma grow (h : Unrepeated log returned cnt top mark) (hcnt : cnt ≤ log.length) (new : List α) :
    Unrepeated (log ++ new) returned cnt top mark := by
  have hmark := Nat.le_trans h.mark_le hcnt
  have htop := h.top_le
  refine ⟨h.nodup, h.mark_le, by rw [List.length_append]; omega, ?_, ?_, ?_, ?_⟩
  · rw [List.take_append_of_le_length htop]; exact h.old
  · rw [List.take_append_of_le_length hmark, List.drop_append_of_le_length hcnt]
    intro id hid
    exact (h.apart id hid).imp_right (List.mem_append_left _)
  · intro k id hk hlog
    rw [List.getElem?_append_left (by omega)] at hlog
    exact h.newest k id hk hlog
  · intro k id hk hlog
    rw [List.getElem?_append_left (by omega)] at hlog
    exact h.newestBefore k id hk hlog

/-- A fresh copy holds the whole log. -/
lemma refresh (h : Unrepeated log returned cnt top mark) :
    Unrepeated log returned log.length top top :=
  ⟨h.nodup, h.top_le, h.top_le, h.old, fun id hid => Or.inl (h.old id hid), h.newest, h.newest⟩

lemma not_mem_take (hlog : log.Nodup) (hk : log[k]? = some id) {m : ℕ} (hm : m ≤ k) :
    id ∉ log.take m := by
  intro hc
  obtain ⟨j,hj,he⟩ := List.mem_take_iff_getElem.mp hc
  obtain ⟨hlt,hid⟩ := List.getElem?_eq_some_iff.mp hk
  have := hlog.getElem_inj_iff.mp (he.trans hid.symm)
  omega

lemma not_mem_drop (hlog : log.Nodup) (hk : log[k]? = some id) {m : ℕ} (hm : k < m) :
    id ∉ log.drop m := by
  intro hc
  obtain ⟨j,hj,he⟩ := List.mem_drop_iff_getElem.mp hc
  obtain ⟨hlt,hid⟩ := List.getElem?_eq_some_iff.mp hk
  have := hlog.getElem_inj_iff.mp (he.trans hid.symm)
  omega

/-- A new read hands out an entry that nobody has seen. -/
lemma read (h : Unrepeated log returned (k+1) top mark) (hlog : log.Nodup)
    (hk : log[k]? = some id) (hnew : mark < k+1) :
    Unrepeated log (id::returned) k (max top (k+1)) mark := by
  obtain ⟨hlt,hid⟩ := List.getElem?_eq_some_iff.mp hk
  have htop := h.top_le
  have hold : ∀ x ∈ id::returned, x ∈ log.take (max top (k+1)) := by
    intro x hx
    rcases List.mem_cons.mp hx with rfl | hx
    · exact List.mem_take_iff_getElem.mpr ⟨k, by omega, hid⟩
    · exact (List.take_sublist_take_left (Nat.le_max_left ..)).mem (h.old x hx)
  refine ⟨List.nodup_cons.mpr ⟨fun hc => ?_, h.nodup⟩, Nat.le_of_lt_succ hnew, by omega, hold,
    ?_, ?_, ?_⟩
  · rcases h.apart id hc with ht | hd
    · exact not_mem_take hlog hk (Nat.le_of_lt_succ hnew) ht
    · exact not_mem_drop hlog hk (Nat.lt_succ_self k) hd
  · intro x hx
    rcases List.mem_cons.mp hx with rfl | hx
    · exact Or.inr (List.mem_drop_iff_getElem.mpr ⟨0, by simpa using hlt, by simpa using hid⟩)
    · rcases h.apart x hx with ht | hd
      · exact Or.inl ht
      · exact Or.inr ((List.drop_sublist_drop_left _ (Nat.le_succ k)).mem hd)
  · intro j x hj hx
    by_cases hjk : j = k
    · subst hjk
      rw [hk] at hx
      exact Option.some.inj hx ▸ List.mem_cons_self ..
    · exact List.mem_cons_of_mem _ (h.newest j x (by omega) hx)
  · exact fun j x hj hx => List.mem_cons_of_mem _ (h.newestBefore j x hj hx)

/-- A read that is not new hands out the newest entry of an earlier copy again. -/
lemma repeated (h : Unrepeated log returned (k+1) top mark) (hk : log[k]? = some id)
    (hold : ¬ mark < k+1) : id ∈ returned := by
  have := h.mark_le
  exact h.newestBefore k id (by omega) hk

end Unrepeated

end DistributedPis.Library
