import DistributedPis.Library.Ring

/-! Sequences in which a value is the sum of two earlier ones, and a table that goes round and holds
the last values of such a sequence. -/
namespace DistributedPis.Library

section Sequence
variable {α : Type*} [Add α] {d s : ℕ} {x : ℕ → α}

/-- The sequence with the first values `x 0, …, x (d-1)` and `z (n+d) = z n + z (n+d-s)`. -/
def lagged (d s : ℕ) (x : ℕ → α) (n : ℕ) : α :=
  if n < d ∨ d = 0 ∨ s = 0 then x n else lagged d s x (n-d) + lagged d s x (n-s)
termination_by n

theorem lagged_of_lt {n : ℕ} (h : n < d) : lagged d s x n = x n := by
  rw [lagged, if_pos (Or.inl h)]

theorem lagged_add (hs : 0 < s) (hd : 0 < d) (n : ℕ) :
    lagged d s x (n+d) = lagged d s x n + lagged d s x (n+d-s) := by
  rw [lagged, if_neg (by omega), Nat.add_sub_cancel]

end Sequence

section Advance
variable {α : Type*} [Add α] {d k : ℕ} {z : ℕ → α}

/-- The last values of a sequence, `n` values further on -/
def advance (k : ℕ) : ℕ → List α → List α
  | 0, ws => ws
  | _+1, [] => []
  | n+1, w::ws => advance k n (ws ++ [w+(w::ws).getD k w])

theorem advance_map (hz : ∀ n, z (n+d) = z n + z (n+k)) (hk : k < d) (n m : ℕ) :
    advance k n ((List.range d).map fun j => z (m+j)) = (List.range d).map fun j => z (m+n+j) := by
  induction n generalizing m with
  | zero => rfl
  | succ n ih =>
    obtain ⟨e,rfl⟩ : ∃ e, d = e+1 := ⟨d-1, by omega⟩
    have hlast : ((List.range (e+1)).map fun j => z (m+j)).getD k (z m) = z (m+k) := by
      simp [List.getD_eq_getElem?_getD, hk]
    have hfirst : ((List.range (e+1)).map fun j => z (m+j)) =
        z m :: (List.range e).map fun j => z (m+1+j) := by
      rw [List.range_succ_eq_map, List.map_cons, List.map_map]
      refine congrArg (List.cons _) (List.map_congr_left fun j _ => ?_)
      exact congrArg z (by simp only [Nat.succ_eq_add_one]; omega)
    rw [hfirst] at hlast
    have hnext : ((List.range e).map fun j => z (m+1+j)) ++ [z m+z (m+k)] =
        (List.range (e+1)).map fun j => z (m+1+j) := by
      rw [List.range_succ, List.map_append, List.map_singleton, ← hz, Nat.add_assoc m 1 e,
        Nat.add_comm 1 e]
    rw [hfirst, advance, hlast, hnext, ih]
    exact List.map_congr_left fun j _ => congrArg z (by omega)

end Advance

section Table
variable {α : Type*} {d p n : ℕ} {table : ℕ → α} {z : ℕ → α}

/-- The table of `d` slots holds `z n, …, z (n+d-1)`, where `z 0` was in slot `p`. -/
def Recent (d p : ℕ) (table : ℕ → α) (z : ℕ → α) (n : ℕ) : Prop :=
  ∀ j < d, table ((p+n+j) % d) = z (n+j)

/-- The next value replaces the oldest one. -/
theorem Recent.push (h : Recent d p table z n) :
    Recent d p (Function.update table ((p+n) % d) (z (n+d))) z (n+1) := by
  intro j hj
  have hslot : p+(n+1)+j = p+n+(j+1) := by omega
  have hvalue : n+1+j = n+(j+1) := by omega
  rw [hslot, hvalue]
  obtain hlast | hlt := Nat.eq_or_lt_of_le (Nat.succ_le_of_lt hj)
  · rw [← Nat.succ_eq_add_one j, hlast, Nat.add_mod_right, Function.update_self]
  · have hne : (p+n+0) % d ≠ (p+n+(j+1)) % d := slot_ne (Nat.succ_pos j) hlt
    rw [Nat.add_zero] at hne
    rw [Function.update_of_ne hne.symm]
    exact h (j+1) hlt

end Table

/-- A counter that goes back to zero. -/
theorem succ_mod_eq (n d : ℕ) (hd : 0 < d) :
    (n+1) % d = if n % d + 1 = d then 0 else n % d + 1 := by
  have hlt := Nat.mod_lt n hd
  rw [← Nat.mod_add_mod]
  split
  next h => rw [h, Nat.mod_self]
  next h => exact Nat.mod_eq_of_lt (by omega)

section Multiply
variable {m a : ℤ} {step : ℤ → ℤ}

/-- Steps of which each multiplies by `a` modulo `m`. -/
theorem iterate_emod (inRange : ℤ → Prop) (hstep : ∀ w, inRange w → step w = a*w % m)
    (hrange : ∀ w, inRange (w % m)) {w : ℤ} (hw : inRange w) (k : ℕ) :
    step^[k+1] w = a^(k+1)*w % m := by
  induction k with
  | zero => rw [Function.iterate_one, hstep w hw, pow_one]
  | succ k ih =>
    rw [Function.iterate_succ_apply', ih, hstep _ (hrange _), Int.mul_emod, Int.emod_emod,
      ← Int.mul_emod, ← mul_assoc, ← pow_succ']

end Multiply
end DistributedPis.Library
