import Mathlib

/-! A shift register with feedback, as it computes checksums: bits are fed into the low end, and the
feedback word `g` is added to the register whenever a one is shifted out. -/
namespace DistributedPis.Library

variable {w : ℕ}

/-- One shift of the register. -/
def lfsr (g r : BitVec w) : BitVec w := if r.getLsbD 0 then (r >>> 1) ^^^ g else r >>> 1

/-- One bit of a message. -/
def feed (g r : BitVec w) (b : Bool) : BitVec w :=
  lfsr g (r ^^^ BitVec.setWidth w (BitVec.ofBool b))

/-- The bits of a message as a word, the first one lowest. -/
def packed (w : ℕ) : List Bool → BitVec w
  | [] => 0
  | b::bs => (packed w bs <<< 1) ^^^ BitVec.setWidth w (BitVec.ofBool b)

section Linear
variable (g r s : BitVec w)

theorem lfsr_xor : lfsr g (r ^^^ s) = lfsr g r ^^^ lfsr g s := by
  simp only [lfsr, BitVec.getLsbD_xor, BitVec.ushiftRight_xor_distrib]
  cases r.getLsbD 0 <;> cases s.getLsbD 0
  · rfl
  · exact BitVec.xor_assoc ..
  · simp only [Bool.xor_false, if_true, Bool.false_eq_true, if_false]
    rw [BitVec.xor_assoc, BitVec.xor_comm (s >>> 1), BitVec.xor_assoc]
  · have hg : g ^^^ ((s >>> 1) ^^^ g) = s >>> 1 := by
      rw [BitVec.xor_comm, BitVec.xor_assoc, BitVec.xor_self, BitVec.xor_zero]
    simp [BitVec.xor_assoc, hg]

theorem lfsr_iterate_xor (n : ℕ) :
    (lfsr g)^[n] (r ^^^ s) = (lfsr g)^[n] r ^^^ (lfsr g)^[n] s := by
  induction n generalizing r s with
  | zero => rfl
  | succ n ih => simp only [Function.iterate_succ_apply, lfsr_xor, ih]

variable {r}

/-- Nothing is fed back while zeros are shifted out. -/
theorem lfsr_iterate_of_clear {n : ℕ} (h : ∀ i < n, r.getLsbD i = false) :
    (lfsr g)^[n] r = r >>> n := by
  induction n with
  | zero => rfl
  | succ n ih =>
    have hbit : (r >>> n).getLsbD 0 = false := by
      simpa using h n (Nat.lt_succ_self n)
    rw [Function.iterate_succ_apply', ih fun i hi => h i (hi.trans (Nat.lt_succ_self n)), lfsr,
      hbit, BitVec.shiftRight_add]
    rfl

end Linear

section Injective
variable {g r s : BitVec w}

/-- A register with feedback into its high end only becomes zero if it was zero. -/
theorem eq_zero_of_lfsr_eq_zero (hg : g.msb = true) (h : lfsr g r = 0) : r = 0 := by
  unfold lfsr at h
  split at h
  · have hmsb := congrArg BitVec.msb h
    rw [BitVec.msb_xor, hg, BitVec.msb_ushiftRight] at hmsb
    simp at hmsb
  · rename_i hbit
    apply BitVec.eq_of_getLsbD_eq
    intro i _
    cases i with
    | zero => simpa using hbit
    | succ i =>
      have hi := congrArg (fun x => x.getLsbD i) h
      simpa [Nat.add_comm] using hi

theorem lfsr_injective (hg : g.msb = true) : Function.Injective (lfsr g) := by
  intro r s h
  have hzero : lfsr g (r ^^^ s) = 0 := by rw [lfsr_xor, h, BitVec.xor_self]; rfl
  exact BitVec.xor_eq_zero_iff.mp (eq_zero_of_lfsr_eq_zero hg hzero)

theorem foldl_feed_injective (hg : g.msb = true) (bs : List Bool) :
    Function.Injective fun r => bs.foldl (feed g) r := by
  induction bs with
  | nil => exact fun _ _ h => h
  | cons b bs ih =>
    intro r s h
    exact (BitVec.xor_left_inj _).mp (lfsr_injective hg (ih h))

end Injective

section Packed
variable {bs cs : List Bool}

theorem packed_getLsbD (bs : List Bool) {i : ℕ} (hi : i < w) :
    (packed w bs).getLsbD i = bs.getD i false := by
  induction bs generalizing i with
  | nil => simp [packed]
  | cons b bs ih =>
    cases i with
    | zero => simp [packed, hi]
    | succ i =>
      have htail := ih (Nat.lt_of_succ_lt hi)
      simpa [packed, hi, Nat.lt_of_succ_lt hi] using htail

theorem packed_inj (hlen : bs.length = cs.length) (hw : bs.length ≤ w)
    (h : packed w bs = packed w cs) : bs = cs := by
  apply List.ext_getElem hlen
  intro i hb hc
  have hi := congrArg (fun x => x.getLsbD i) h
  simpa [packed_getLsbD _ (hb.trans_le hw), hb, hc] using hi

/-- At most `w` bits can be fed at once. -/
theorem foldl_feed (g r : BitVec w) (bs : List Bool) (hw : bs.length ≤ w) :
    bs.foldl (feed g) r = (lfsr g)^[bs.length] (r ^^^ packed w bs) := by
  induction bs generalizing r with
  | nil => simp [packed]
  | cons b bs ih =>
    rw [List.length_cons] at hw
    have hlow : (packed w bs <<< 1).getLsbD 0 = false := by simp
    have hback : lfsr g (packed w bs <<< 1) = packed w bs := by
      rw [lfsr, hlow]
      apply BitVec.eq_of_getLsbD_eq
      intro i hi
      by_cases hlast : 1+i < w
      · simp [hlast, hi]
      · have hout : bs.length ≤ i := by omega
        simp [hlast, packed_getLsbD bs hi, hout]
    rw [List.foldl_cons, ih _ (by omega), List.length_cons, Function.iterate_succ_apply, packed,
      BitVec.xor_comm (packed w bs <<< 1), ← BitVec.xor_assoc, lfsr_xor g (r ^^^ _), hback]
    rfl

end Packed

/-- Two messages that differ in at most `n` consecutive bits. -/
def Within {α : Type} (n : ℕ) (m m' : List α) : Prop :=
  ∃ front x y back, x.length = y.length ∧ x.length ≤ n ∧
    m = front ++ x ++ back ∧ m' = front ++ y ++ back

/-- An error in at most `w` consecutive bits changes the register for good. -/
theorem foldl_feed_eq_iff {g : BitVec w} (hg : g.msb = true) (r : BitVec w) {m m' : List Bool}
    (h : Within w m m') : m.foldl (feed g) r = m'.foldl (feed g) r ↔ m = m' := by
  constructor
  · intro heq
    obtain ⟨front,x,y,back,hlen,hw,rfl,rfl⟩ := h
    simp only [List.foldl_append] at heq
    have hburst := foldl_feed_injective hg back heq
    rw [foldl_feed g _ x hw, foldl_feed g _ y (hlen ▸ hw), hlen] at hburst
    have hpack := (BitVec.xor_right_inj _).mp ((lfsr_injective hg).iterate _ hburst)
    rw [packed_inj hlen hw hpack]
  · rintro rfl
    rfl

end DistributedPis.Library
