import Mathlib

/-! A signal that keeps its value between changes, given by the list of its changes in time. -/
namespace DistributedPis.Library
variable {β : Type*}

/-- The value at time `t`, which is `b` before the first change. -/
def signal (b : β) (ws : List (ℕ × β)) (t : ℕ) : β :=
  ws.foldl (fun b w => if w.1 ≤ t then w.2 else b) b

section Changes
variable {b : β} {xs ys ws : List (ℕ × β)} {w : ℕ → ℕ} {v : ℕ → β} {k n t : ℕ}

@[simp] theorem signal_nil : signal b [] t = b := rfl

theorem signal_append : signal b (xs ++ ys) t = signal (signal b xs t) ys t :=
  List.foldl_append

/-- Later changes do not matter. -/
theorem signal_later (h : ∀ w ∈ ws, t < w.1) : signal b ws t = b := by
  induction ws with
  | nil => rfl
  | cons w ws ih =>
    obtain ⟨hw,hws⟩ := List.forall_mem_cons.mp h
    rw [signal, List.foldl_cons, if_neg (Nat.not_le_of_lt hw)]
    exact ih hws

theorem signal_append_later (h : ∀ w ∈ ys, t < w.1) : signal b (xs ++ ys) t = signal b xs t := by
  rw [signal_append, signal_later h]

/-- The changes `v 0`, `v 1`, … at the times `w 0`, `w 1`, … -/
def changes (w : ℕ → ℕ) (v : ℕ → β) (n : ℕ) : List (ℕ × β) := (List.range n).map fun k => (w k, v k)

theorem changes_succ : changes w v (n+1) = changes w v n ++ [(w n, v n)] := by
  rw [changes, List.range_succ, List.map_append]
  rfl

/-- The sequence that starts with `x`. -/
def prepend (x : β) (xs : ℕ → β) : ℕ → β
  | 0 => x
  | k+1 => xs k

@[simp] theorem prepend_zero (x : β) (xs : ℕ → β) : prepend x xs 0 = x := rfl

@[simp] theorem prepend_succ (x : β) (xs : ℕ → β) (k : ℕ) : prepend x xs (k+1) = xs k := rfl

theorem changes_prepend (t : ℕ) : changes (prepend t w) v (n+1) =
    (t, v 0) :: changes w (fun k => v (k+1)) n := by
  rw [changes, List.range_succ_eq_map, List.map_cons, List.map_map]
  rfl

theorem changes_congr {w' : ℕ → ℕ} {v' : ℕ → β} (h : ∀ k < n, w k = w' k ∧ v k = v' k) :
    changes w v n = changes w' v' n := by
  refine List.map_congr_left fun k hk => ?_
  obtain ⟨hw,hv⟩ := h k (List.mem_range.mp hk)
  rw [hw, hv]

theorem mem_changes {x : ℕ × β} : x ∈ changes w v n ↔ ∃ k < n, x = (w k, v k) := by
  simp [changes, eq_comm]

/-- Between two changes the signal has the value of the first one. -/
theorem signal_changes (hk : k < n) (hlo : w k ≤ t)
    (hhi : ∀ j, k < j → j < n → t < w j) : signal b (changes w v n) t = v k := by
  induction n with
  | zero => exact absurd hk (Nat.not_lt_zero k)
  | succ n ih =>
    rw [changes_succ, signal_append]
    rcases Nat.lt_or_eq_of_le (Nat.le_of_lt_succ hk) with hlt | rfl
    · have hlater : t < w n := hhi n hlt (Nat.lt_succ_self n)
      rw [ih hlt fun j hkj hj => hhi j hkj (Nat.lt_succ_of_lt hj)]
      exact if_neg (Nat.not_le_of_lt hlater)
    · exact if_pos hlo

/-- Before its changes the signal has its initial value. -/
theorem signal_changes_before (h : ∀ k < n, t < w k) : signal b (changes w v n) t = b := by
  refine signal_later fun x hx => ?_
  obtain ⟨k,hk,rfl⟩ := mem_changes.mp hx
  exact h k hk

end Changes

end DistributedPis.Library
