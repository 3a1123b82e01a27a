import Mathlib

/-! A memory of bytes, its blocks and its 32 bit little-endian words. -/
namespace DistributedPis.Library

/-- A 32 bit word from its bytes, the lowest one first. -/
def le32 (b₀ b₁ b₂ b₃ : UInt8) : ℕ :=
  b₀.toNat + 256*b₁.toNat + 65536*b₂.toNat + 16777216*b₃.toNat

theorem le32_lt (b₀ b₁ b₂ b₃ : UInt8) : le32 b₀ b₁ b₂ b₃ < 2^32 := by
  have h₀ := b₀.toNat_lt
  have h₁ := b₁.toNat_lt
  have h₂ := b₂.toNat_lt
  have h₃ := b₃.toNat_lt
  unfold le32
  omega

/-- Byte `i` of a word. -/
def byteOf (n i : ℕ) : UInt8 := UInt8.ofNat (n / 256^i)

@[simp] theorem le32_byteOf (n : ℕ) :
    le32 (byteOf n 0) (byteOf n 1) (byteOf n 2) (byteOf n 3) = n % 2^32 := by
  simp only [le32, byteOf, UInt8.toNat_ofNat']
  omega

theorem byteOf_le32 (b₀ b₁ b₂ b₃ : UInt8) :
    byteOf (le32 b₀ b₁ b₂ b₃) 0 = b₀ ∧ byteOf (le32 b₀ b₁ b₂ b₃) 1 = b₁ ∧
      byteOf (le32 b₀ b₁ b₂ b₃) 2 = b₂ ∧ byteOf (le32 b₀ b₁ b₂ b₃) 3 = b₃ := by
  have h₀ := b₀.toNat_lt
  have h₁ := b₁.toNat_lt
  have h₂ := b₂.toNat_lt
  have h₃ := b₃.toNat_lt
  refine ⟨?_, ?_, ?_, ?_⟩ <;> apply UInt8.toNat_inj.mp <;>
    simp only [byteOf, le32, UInt8.toNat_ofNat'] <;> omega

/-- The address `x` lies in the `n` bytes from `a` on. -/
def InBlock (a n x : ℕ) : Prop := a ≤ x ∧ x < a+n

/-- Overwrite the block that starts at `a`. -/
def fill (m : ℕ → UInt8) (a : ℕ) (bs : List UInt8) : ℕ → UInt8 :=
  fun x => if a ≤ x ∧ x < a+bs.length then bs.getD (x-a) 0 else m x

/-- The `n` bytes from `a` on. -/
def block (m : ℕ → UInt8) (a n : ℕ) : List UInt8 := (List.range n).map (fun k => m (a+k))

def read32 (m : ℕ → UInt8) (a : ℕ) : ℕ := le32 (m a) (m (a+1)) (m (a+2)) (m (a+3))

def write32 (m : ℕ → UInt8) (a v : ℕ) : ℕ → UInt8 :=
  fill m a [byteOf v 0, byteOf v 1, byteOf v 2, byteOf v 3]

def write8 (m : ℕ → UInt8) (a : ℕ) (v : UInt8) : ℕ → UInt8 := fill m a [v]

/-- The bytes from `a` to `b` the other way round. -/
def mirror (m : ℕ → UInt8) (a b : ℕ) : ℕ → UInt8 :=
  fun x => if a ≤ x ∧ x ≤ b then m (a+b-x) else m x

variable {m m' : ℕ → UInt8} {a d n x : ℕ} {bs : List UInt8}

/-- One of a row of blocks ends before each later one starts. -/
theorem cell_le {i j : ℕ} (h : i < j) (k : ℕ) : i*k + k ≤ j*k := by
  rw [← Nat.succ_mul]
  exact Nat.mul_le_mul_right k h

theorem fill_outside (h : ¬ InBlock a bs.length x) : fill m a bs x = m x := if_neg h

theorem fill_inside {k : ℕ} (h : k < bs.length) : fill m a bs (a+k) = bs[k] := by
  rw [fill, if_pos (by omega)]
  simp [List.getD_eq_getElem?_getD, h]

@[simp] theorem fill_nil : fill m a [] = m := by
  funext x
  exact fill_outside (by simp [InBlock])

@[simp] theorem block_length : (block m a n).length = n := by simp [block]

theorem getElem_block {k : ℕ} (h : k < (block m a n).length) : (block m a n)[k] = m (a+k) := by
  simp [block]

theorem block_congr (h : ∀ k < n, m' (a+k) = m (a+k)) : block m' a n = block m a n :=
  List.map_congr_left (fun k hk => h k (List.mem_range.mp hk))

/-- Overwriting a part of a block. -/
theorem block_fill {off : ℕ} (h : off + bs.length ≤ n) :
    block (fill m (a+off) bs) a n =
      (block m a n).take off ++ bs ++ (block m a n).drop (off+bs.length) := by
  apply List.ext_getElem
  · simp only [block_length, List.length_append, List.length_take, List.length_drop]
    omega
  · intro k hk _
    rw [block_length] at hk
    rw [getElem_block]
    by_cases hlo : k < off
    · rw [fill_outside (by unfold InBlock; omega), List.getElem_append_left (by simp; omega),
        List.getElem_append_left (by simp; omega), List.getElem_take, getElem_block]
    · by_cases hhi : k < off+bs.length
      · have hk' : a+k = a+off+(k-off) := by omega
        rw [hk', fill_inside (by omega), List.getElem_append_left (by simp; omega),
          List.getElem_append_right (by simp; omega)]
        congr 1
        simp
        omega
      · rw [fill_outside (by unfold InBlock; omega),
          List.getElem_append_right (by simp; omega), List.getElem_drop, getElem_block]
        congr 1
        simp
        omega

theorem block_fill_self (m : ℕ → UInt8) (a : ℕ) (bs : List UInt8) :
    block (fill m a bs) a bs.length = bs := by
  apply List.ext_getElem
  · exact block_length
  · intro k _ hk
    rw [getElem_block, fill_inside hk]

/-- Overwriting one block and then the one behind it. -/
theorem fill_fill (m : ℕ → UInt8) (a : ℕ) (xs ys : List UInt8) :
    fill (fill m a xs) (a+xs.length) ys = fill m a (xs ++ ys) := by
  funext x
  by_cases hlo : InBlock a xs.length x
  · rw [fill_outside (by unfold InBlock at *; omega)]
    obtain ⟨k,rfl⟩ := Nat.exists_eq_add_of_le hlo.1
    have hk : k < xs.length := by
      unfold InBlock at hlo
      omega
    rw [fill_inside hk, fill_inside (by simp; omega), List.getElem_append_left hk]
  · by_cases hhi : InBlock (a+xs.length) ys.length x
    · obtain ⟨k,rfl⟩ := Nat.exists_eq_add_of_le hhi.1
      have hk : k < ys.length := by
        unfold InBlock at hhi
        omega
      rw [fill_inside hk, Nat.add_assoc, fill_inside (by simp; omega),
        List.getElem_append_right (by omega)]
      simp
    · rw [fill_outside hhi, fill_outside hlo, fill_outside]
      unfold InBlock at *
      rw [List.length_append]
      omega

/-- Blocks that lie apart are overwritten in either order. -/
theorem fill_comm (m : ℕ → UInt8) {a b : ℕ} {xs ys : List UInt8} (h : a+xs.length ≤ b) :
    fill (fill m a xs) b ys = fill (fill m b ys) a xs := by
  funext x
  by_cases hx : InBlock a xs.length x
  · have hy : ¬ InBlock b ys.length x := by
      unfold InBlock at *
      omega
    obtain ⟨k,rfl⟩ := Nat.exists_eq_add_of_le hx.1
    have hk : k < xs.length := Nat.lt_of_add_lt_add_left hx.2
    rw [fill_outside hy, fill_inside hk, fill_inside hk]
  · by_cases hy : InBlock b ys.length x
    · obtain ⟨k,rfl⟩ := Nat.exists_eq_add_of_le hy.1
      have hk : k < ys.length := Nat.lt_of_add_lt_add_left hy.2
      rw [fill_inside hk, fill_outside hx, fill_inside hk]
    · rw [fill_outside hy, fill_outside hx, fill_outside hx, fill_outside hy]

/-- A part of what the block was overwritten with. -/
theorem block_fill_drop (m : ℕ → UInt8) (bs : List UInt8) {k n : ℕ} (h : k+n ≤ bs.length) :
    block (fill m 0 bs) k n = (bs.drop k).take n := by
  apply List.ext_getElem
  · simp
    omega
  · intro j hj _
    rw [block_length] at hj
    have hk : k+j = 0+(k+j) := (Nat.zero_add _).symm
    rw [getElem_block, hk, fill_inside (by omega), List.getElem_take, List.getElem_drop]

theorem read32_lt : read32 m a < 2^32 := le32_lt _ _ _ _

theorem read32_congr (h : ∀ k < 4, m' (a+k) = m (a+k)) : read32 m' a = read32 m a := by
  have h0 := h 0 (by decide)
  have h1 := h 1 (by decide)
  have h2 := h 2 (by decide)
  have h3 := h 3 (by decide)
  rw [read32, read32, h1, h2, h3]
  simp only [Nat.add_zero] at h0
  rw [h0]

@[simp] theorem read32_write32 (v : ℕ) : read32 (write32 m a v) a = v % 2^32 := by
  rw [← le32_byteOf]
  simp [read32, write32, fill]

theorem read32_fill (h : a+4 ≤ d ∨ d+bs.length ≤ a) : read32 (fill m d bs) a = read32 m a :=
  read32_congr (fun k hk => fill_outside (by unfold InBlock; omega))

theorem read32_write32_of_ne (v : ℕ) (h : a+4 ≤ d ∨ d+4 ≤ a) :
    read32 (write32 m d v) a = read32 m a := read32_fill h

theorem read32_write8_of_ne (v : UInt8) (h : a+4 ≤ d ∨ d+1 ≤ a) :
    read32 (write8 m d v) a = read32 m a := read32_fill h

theorem write32_outside (v : ℕ) (h : x < a ∨ a+4 ≤ x) : write32 m a v x = m x :=
  fill_outside (by simp [InBlock]; omega)

@[simp] theorem write8_self (v : UInt8) : write8 m a v a = v := by simp [write8, fill]

theorem write8_outside (v : UInt8) (h : x ≠ a) : write8 m a v x = m x :=
  fill_outside (by simp [InBlock]; omega)

theorem mirror_of_le {b : ℕ} (h : b ≤ a) : mirror m a b = m := by
  funext x
  unfold mirror
  split
  · congr 1
    omega
  · rfl

/-- Swapping the outer bytes leaves those between them to be turned round. -/
theorem mirror_swap {b : ℕ} (h : a < b) :
    mirror (write8 (write8 m a (m b)) b (m a)) (a+1) (b-1) = mirror m a b := by
  funext x
  by_cases ha : x = a
  · subst ha
    rw [mirror, if_neg (by omega), write8_outside _ (by omega), write8_self, mirror,
      if_pos (by omega), Nat.add_sub_cancel_left]
  · by_cases hb : x = b
    · subst hb
      rw [mirror, if_neg (by omega), write8_self, mirror, if_pos (by omega), Nat.add_sub_cancel]
    · by_cases hin : a ≤ x ∧ x ≤ b
      · have hsum : a+1+(b-1)-x = a+b-x := by omega
        rw [mirror, if_pos (by omega), hsum, write8_outside _ (by omega),
          write8_outside _ (by omega), mirror, if_pos hin]
      · rw [mirror, if_neg (by omega), write8_outside _ hb, write8_outside _ ha, mirror,
          if_neg hin]

theorem mirror_fill (m : ℕ → UInt8) (a : ℕ) (bs : List UInt8) :
    mirror (fill m a bs) a (a+(bs.length-1)) = fill m a bs.reverse := by
  cases hbs : bs.length with
  | zero =>
    rw [List.length_eq_zero_iff] at hbs
    subst hbs
    exact mirror_of_le le_rfl
  | succ n =>
    funext x
    by_cases hin : a ≤ x ∧ x ≤ a+n
    · obtain ⟨k,rfl⟩ := Nat.exists_eq_add_of_le hin.1
      have hsum : a+(a+(n+1-1))-(a+k) = a+(n-k) := by omega
      have hrev : k < bs.reverse.length := by
        rw [List.length_reverse]
        omega
      rw [mirror, if_pos (by omega), hsum, fill_inside (by omega), fill_inside hrev,
        List.getElem_reverse]
      congr 1
      omega
    · have hout : ¬ InBlock a (n+1) x := by
        unfold InBlock
        omega
      rw [mirror, if_neg (by omega), fill_outside (by rwa [hbs]),
        fill_outside (by rwa [List.length_reverse, hbs])]

end DistributedPis.Library
