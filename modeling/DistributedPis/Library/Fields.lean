import Mathlib

/-! The fields of a line: what is left between separators, without the empty pieces. -/
namespace DistributedPis.Library
variable {α : Type*} [DecidableEq α] {sep : α} {s w : List α}

def fields (sep : α) (s : List α) : List (List α) := (s.splitOn sep).filter fun w => w ≠ []

@[simp] theorem fields_nil (sep : α) : fields sep [] = [] := by simp [fields]

/-- A separator ends a field. -/
theorem fields_append (sep : α) (w s : List α) :
    fields sep (w ++ sep::s) = fields sep w ++ fields sep s := by
  rw [fields, List.splitOn_append_cons_self, List.filter_append]
  rfl

theorem fields_single (h : sep ∉ w) (hw : w ≠ []) : fields sep w = [w] := by
  rw [fields, List.splitOn_eq_singleton h]
  simp [hw]

/-- Separators in front of a field do not count. -/
theorem fields_dropWhile (sep : α) (s : List α) :
    fields sep (s.dropWhile (· = sep)) = fields sep s := by
  induction s with
  | nil => rfl
  | cons c s ih =>
    by_cases hc : c = sep
    · subst hc
      rw [List.dropWhile_cons_of_pos (by simp), ih]
      exact (fields_append c [] s).symm
    · rw [List.dropWhile_cons_of_neg (by simpa using hc)]

/-- The first field and what is behind its separator. -/
theorem fields_cons {c : α} (hc : c ≠ sep) : fields sep (c::s) =
    (c::s).takeWhile (· ≠ sep) :: fields sep (((c::s).dropWhile (· ≠ sep)).drop 1) := by
  have hfirst : sep ∉ (c::s).takeWhile (· ≠ sep) := by
    intro h
    simpa using List.mem_takeWhile_imp h
  have hne : (c::s).takeWhile (· ≠ sep) ≠ [] := by simp [hc]
  have hsplit := List.takeWhile_append_dropWhile (p := fun x => decide (x ≠ sep)) (l := c::s)
  rcases hrest : (c::s).dropWhile (· ≠ sep) with _ | ⟨d,rest⟩
  · rw [hrest, List.append_nil] at hsplit
    rw [List.drop_nil, fields_nil, hsplit]
    rw [hsplit] at hfirst
    exact fields_single hfirst (List.cons_ne_nil c s)
  · have hd : d = sep := by
      have hhead := List.head?_dropWhile_not (fun x => decide (x ≠ sep)) (c::s)
      rw [hrest] at hhead
      simpa using hhead
    rw [hrest, hd] at hsplit
    conv_lhs => rw [← hsplit]
    rw [fields_append, fields_single hfirst hne]
    rfl

end DistributedPis.Library
