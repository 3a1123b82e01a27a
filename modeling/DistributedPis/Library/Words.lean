import Mathlib

/-! A memory of 32-bit words, one for each word address, and blocks of consecutive words. -/
namespace DistributedPis.Library

abbrev Word := BitVec 32

/-- The address `k` words behind `b`. -/
def word (b : Word) (k : ℕ) : Word := b + BitVec.ofNat 32 (4*k)

section Address
variable (b : Word) (j k : ℕ)

@[simp] theorem word_zero : word b 0 = b := by simp [word]

@[simp] theorem word_word : word (word b j) k = word b (j+k) := by
  rw [word, word, word, BitVec.add_assoc, ← BitVec.ofNat_add, Nat.mul_add]

theorem word_inj {b : Word} {j k : ℕ} (hj : j < 2^30) (hk : k < 2^30) (h : word b j = word b k) :
    j = k := by
  unfold word at h
  have hsub := congrArg BitVec.toNat ((BitVec.add_right_inj b).mp h)
  rw [BitVec.toNat_ofNat, BitVec.toNat_ofNat, Nat.mod_eq_of_lt (by omega),
    Nat.mod_eq_of_lt (by omega)] at hsub
  omega

end Address

/-- Store consecutive words from address `b` on. -/
def storeWords (m : Word → Word) (b : Word) : List Word → Word → Word
  | [] => m
  | w::ws => storeWords (Function.update m b w) (word b 1) ws

section Store
variable {m : Word → Word} {a b w : Word} {ws : List Word} {k : ℕ}

/-- What is not in the block keeps its value. -/
theorem storeWords_off (h : ∀ k < ws.length, a ≠ word b k) : storeWords m b ws a = m a := by
  induction ws generalizing m b with
  | nil => rfl
  | cons w ws ih =>
    have hb : a ≠ b := by simpa using h 0 (by simp)
    rw [storeWords, ih fun k hk => ?_, Function.update_of_ne hb]
    rw [word_word, Nat.add_comm]
    exact h (k+1) (by simpa using hk)

/-- Reading the block back. -/
theorem storeWords_word (hk : ws[k]? = some w) (hlen : ws.length ≤ 2^30) :
    storeWords m b ws (word b k) = w := by
  induction ws generalizing m b k with
  | nil => simp at hk
  | cons w' ws ih =>
    simp only [List.length_cons] at hlen
    cases k with
    | zero =>
      obtain rfl : w' = w := by simpa using hk
      rw [storeWords, storeWords_off, word_zero, Function.update_self]
      intro j hj hc
      rw [word_word] at hc
      exact absurd (word_inj (by omega) (by omega) hc) (by omega)
    | succ k =>
      have hstep := ih (m := Function.update m b w') (b := word b 1) (by simpa using hk) (by omega)
      rwa [word_word, Nat.add_comm 1 k] at hstep

theorem storeWords_head (hlen : (w::ws).length ≤ 2^30) : storeWords m b (w::ws) b = w := by
  have hread := storeWords_word (m := m) (b := b) (k := 0) (List.getElem?_cons_zero (l := ws)) hlen
  rwa [word_zero] at hread

end Store

/-- Two blocks of `n` words that share no address. -/
def Apart (n : ℕ) (b c : Word) : Prop := ∀ j < n, ∀ k < n, word b j ≠ word c k

instance (n : ℕ) (b c : Word) : Decidable (Apart n b c) :=
  inferInstanceAs (Decidable (∀ j < n, ∀ k < n, word b j ≠ word c k))

/-- `memcpy` of `n` words. -/
def copyWords (n : ℕ) (dst src : Word) (m : Word → Word) : Word → Word :=
  storeWords m dst ((List.range n).map fun k => m (word src k))

section Copy
variable {n : ℕ} {dst src a : Word} {m : Word → Word} {k : ℕ}

theorem copyWords_off (h : ∀ k < n, a ≠ word dst k) : copyWords n dst src m a = m a :=
  storeWords_off (by simpa using h)

theorem copyWords_word (hk : k < n) (hn : n ≤ 2^30) :
    copyWords n dst src m (word dst k) = m (word src k) := by
  refine storeWords_word ?_ (by simpa using hn)
  rw [List.getElem?_map, List.getElem?_range hk]
  rfl

end Copy

end DistributedPis.Library
