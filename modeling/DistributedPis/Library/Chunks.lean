import Mathlib

/-! Cutting a list into consecutive pieces of a fixed width, the last one possibly shorter. -/
namespace DistributedPis.Library
variable {α : Type*}

/-- How many pieces of width `w` cover `n` elements. -/
def pieces (w n : ℕ) : ℕ := n / w + if 0 < n % w then 1 else 0

@[simp] theorem pieces_zero (w : ℕ) : pieces w 0 = 0 := by simp [pieces]

/-- The last piece is the one that is cut short. -/
theorem pieces_add (w n : ℕ) (hw : 0 < w) : pieces w (n+w) = pieces w n + 1 := by
  simp only [pieces, Nat.add_div_right n hw, Nat.add_mod_right]
  omega

theorem pieces_of_le (w n : ℕ) (hn : 0 < n) (h : n ≤ w) : pieces w n = 1 := by
  rcases Nat.lt_or_eq_of_le h with h | rfl
  · simp [pieces, Nat.div_eq_of_lt h, Nat.mod_eq_of_lt h, hn]
  · simp [pieces, Nat.div_self hn]

theorem pieces_pos (w n : ℕ) (hw : 0 < w) (hn : 0 < n) : 0 < pieces w n := by
  by_cases h : n ≤ w
  · rw [pieces_of_le w n hn h]; exact Nat.one_pos
  · obtain ⟨m,rfl⟩ := Nat.exists_eq_add_of_le (Nat.le_of_lt (Nat.lt_of_not_le h))
    rw [Nat.add_comm w m, pieces_add w m hw]; exact Nat.succ_pos _

theorem pieces_sub (w n : ℕ) (hw : 0 < w) (hn : 0 < n) :
    pieces w n = pieces w (n-w) + 1 := by
  by_cases h : n ≤ w
  · rw [pieces_of_le w n hn h, Nat.sub_eq_zero_of_le h, pieces_zero]
  · have hs : n-w+w = n := by omega
    have hp := pieces_add w (n-w) hw
    rwa [hs] at hp

theorem le_mul_pieces (w n : ℕ) (hw : 0 < w) : n ≤ w*pieces w n := by
  have h := Nat.div_add_mod n w
  have hl := Nat.mod_lt n hw
  unfold pieces
  split
  · rw [Nat.mul_add]; omega
  · rw [Nat.add_zero]; omega

theorem mul_pieces_lt (w n : ℕ) (hw : 0 < w) : w*pieces w n < n+w := by
  have h := Nat.div_add_mod n w
  have hl := Nat.mod_lt n hw
  unfold pieces
  split
  · rw [Nat.mul_add]; omega
  · rw [Nat.add_zero]; omega

/-- An index lies in piece `i` exactly when that piece exists and reaches it. -/
theorem lt_pieces (w n i : ℕ) (hw : 0 < w) : i < pieces w n ↔ w*i < n := by
  have hlo := le_mul_pieces w n hw
  have hhi := mul_pieces_lt w n hw
  constructor
  · intro h
    have hm : w*(i+1) ≤ w*pieces w n := Nat.mul_le_mul_left w h
    rw [Nat.mul_add] at hm
    omega
  · intro h
    by_contra hn
    have hm : w*pieces w n ≤ w*i := Nat.mul_le_mul_left w (Nat.le_of_not_lt hn)
    omega

/-- Piece number `i`. -/
def chunk (w : ℕ) (xs : List α) (i : ℕ) : List α := (xs.drop (w*i)).take w

def chunks (w : ℕ) (xs : List α) : List (List α) :=
  (List.range (pieces w xs.length)).map (chunk w xs)

theorem chunk_length (w : ℕ) (xs : List α) (i : ℕ) :
    (chunk w xs i).length = min w (xs.length - w*i) := by simp [chunk]

theorem chunk_length_le (w : ℕ) (xs : List α) (i : ℕ) : (chunk w xs i).length ≤ w := by
  rw [chunk_length]; exact Nat.min_le_left _ _

@[simp] theorem chunks_length (w : ℕ) (xs : List α) :
    (chunks w xs).length = pieces w xs.length := by simp [chunks]

@[simp] theorem chunks_nil (w : ℕ) : chunks w ([] : List α) = [] := by simp [chunks]

@[simp] theorem getElem_chunks (w : ℕ) (xs : List α) (i : ℕ) (h : i < (chunks w xs).length) :
    (chunks w xs)[i] = chunk w xs i := by simp [chunks]

theorem chunk_succ (w : ℕ) (xs : List α) (i : ℕ) :
    chunk w xs (i+1) = chunk w (xs.drop w) i := by
  simp [chunk, List.drop_drop, Nat.mul_add, Nat.add_comm]

/-- The loop that peels one piece off the front. -/
theorem chunks_cons (w : ℕ) (xs : List α) (hw : 0 < w) (hx : xs ≠ []) :
    chunks w xs = xs.take w :: chunks w (xs.drop w) := by
  have hn := List.length_pos_iff.mpr hx
  have hp := pieces_sub w xs.length hw hn
  rw [chunks, hp, List.range_succ_eq_map, List.map_cons, List.map_map, chunks, List.length_drop]
  congr 1
  exact List.map_congr_left (fun i _ => chunk_succ w xs i)

/-- The beginning of a list of blocks is some whole blocks and a part of the next one. -/
theorem exists_take_of_prefix_flatMap {α β : Type} {f : α → List β} {xs : List α} {ps : List β}
    (hne : ∀ x ∈ xs, f x ≠ []) (h : ps <+: xs.flatMap f) :
    ∃ k part, k ≤ xs.length ∧ ps = (xs.take k).flatMap f ++ part ∧
      (part = [] ∨ ∃ x ∈ xs, part <+: f x ∧ part.length < (f x).length) ∧
      (ps = xs.flatMap f → k = xs.length) := by
  induction xs generalizing ps with
  | nil => exact ⟨0, [], le_rfl, List.prefix_nil.mp h, .inl rfl, fun _ => rfl⟩
  | cons x xs ih =>
    have hx := hne x (List.mem_cons_self ..)
    rw [List.flatMap_cons] at h
    by_cases hlt : ps.length < (f x).length
    · have hpart : ps <+: f x := List.prefix_of_prefix_length_le h (List.prefix_append ..) hlt.le
      refine ⟨0, ps, Nat.zero_le _, rfl, .inr ⟨x, List.mem_cons_self .., hpart, hlt⟩, ?_⟩
      rintro rfl
      rw [List.flatMap_cons, List.length_append] at hlt
      omega
    · obtain ⟨qs,rfl⟩ := List.prefix_of_prefix_length_le (List.prefix_append (f x) _) h
        (Nat.not_lt.mp hlt)
      obtain ⟨k,part,hk,rfl,hpart,hall⟩ := ih (fun y hy => hne y (List.mem_cons_of_mem _ hy))
        ((List.prefix_append_right_inj _).mp h)
      refine ⟨k+1, part, Nat.succ_le_succ hk, ?_, ?_, fun heq => ?_⟩
      · rw [List.take_succ_cons, List.flatMap_cons, List.append_assoc]
      · refine hpart.imp_right ?_
        rintro ⟨y,hy,hpre,hlen⟩
        exact ⟨y, List.mem_cons_of_mem _ hy, hpre, hlen⟩
      · rw [List.flatMap_cons] at heq
        rw [hall (List.append_cancel_left heq), List.length_cons]

end DistributedPis.Library
