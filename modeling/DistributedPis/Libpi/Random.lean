import DistributedPis.Library.Lagged
import DistributedPis.Library.Words

/-! The random numbers of `random.c`. The table with its two pointers goes round and holds the last
values of a sequence of sums, and a generator whose products do not fit in a word fills it. -/
namespace DistributedPis
open Library

/-- `random_poly_info.degrees` -/
def degrees : ℕ → ℕ
  | 1 => 7
  | 2 => 15
  | 3 => 31
  | 4 => 63
  | _ => 0

/-- `random_poly_info.seps` -/
def seps : ℕ → ℕ
  | 1 => 3
  | 2 => 1
  | 3 => 3
  | 4 => 1
  | _ => 0

/-- `struct random_data`, with the array that it points to: `header` is the word in front of the
table, and the pointers are indices into the table. -/
structure RandomData where
  fptr : ℕ
  rptr : ℕ
  header : Word
  state : ℕ → Word
  randType : ℕ
  randDeg : ℕ
  randSep : ℕ
  endPtr : ℕ

/-- `random_r` -/
def randomR (buf : RandomData) : Word × RandomData :=
  if buf.randType = 0 then
    let val := (buf.state 0 * 1103515245#32 + 12345#32) &&& 0x7fffffff#32
    (val, {buf with state := Function.update buf.state 0 val})
  else
    let val := buf.state buf.fptr + buf.state buf.rptr
    let state := Function.update buf.state buf.fptr val
    let result := val.sshiftRight 1 &&& 0x7fffffff#32
    if buf.endPtr ≤ buf.fptr+1 then
      (result, {buf with state := state, fptr := 0, rptr := buf.rptr+1})
    else
      let rptr := if buf.endPtr ≤ buf.rptr+1 then 0 else buf.rptr+1
      (result, {buf with state := state, fptr := buf.fptr+1, rptr := rptr})

/-- One round of the loop that fills the table, on a signed word. -/
def nextWord (word : ℤ) : ℤ :=
  let hi := word.tdiv 127773
  let lo := word.tmod 127773
  let word := 16807*lo - 2836*hi
  if word < 0 then word + 2147483647 else word

/-- `n` rounds, from index `i` on -/
def fillLoop : ℕ → ℕ → ℤ → (ℕ → Word) → ℕ → Word
  | 0, _, _, state => state
  | n+1, i, word, state =>
    fillLoop n (i+1) (nextWord word) (Function.update state i (BitVec.ofInt 32 (nextWord word)))

/-- The seed must not be 0. -/
def firstWord (seed : Word) : Word := if seed = 0 then 1 else seed

/-- `srandom_r`; there is no result where it returns -1. -/
def srandomR (seed : Word) (buf : RandomData) : Option RandomData :=
  if 5 ≤ buf.randType then none
  else
    let state := Function.update buf.state 0 (firstWord seed)
    if buf.randType = 0 then some {buf with state := state}
    else
      let kc := buf.randDeg
      let state := fillLoop (kc-1) 1 (firstWord seed).toInt state
      let buf := {buf with state := state, fptr := buf.randSep, rptr := 0}
      some ((fun buf => (randomR buf).2)^[kc*10] buf)

/-- The largest table that `n` bytes are enough for -/
def typeOf (n : ℕ) : Option ℕ :=
  if 128 ≤ n then some (if n < 256 then 3 else 4)
  else if n < 32 then if n < 8 then none else some 0
  else some (if n < 64 then 1 else 2)

/-- What is kept in front of the table -/
def headerOf (buf : RandomData) : Word :=
  if buf.randType = 0 then 0 else BitVec.ofNat 32 (buf.rptr*5+buf.randType)

/-- `initstate_r` on an array of `n` bytes. It does not look at what `srandom_r` returns. -/
def initstateR (seed : Word) (argState : ℕ → Word) (n : ℕ) (buf : RandomData) :
    Option RandomData := do
  let type ← typeOf n
  let buf := {buf with randType := type, randSep := seps type, randDeg := degrees type,
                       endPtr := degrees type, state := argState}
  let buf := (srandomR seed buf).getD buf
  return {buf with header := headerOf buf}

/-- What a program does with its generator -/
inductive RandomOp where
  | random
  | srandom (seed : Word)

/-- The numbers that a program gets -/
def runRandom : List RandomOp → RandomData → Option (List Word)
  | [], _ => some []
  | .random :: ops, buf => do return (randomR buf).1 :: (← runRandom ops (randomR buf).2)
  | .srandom seed :: ops, buf => do runRandom ops (← srandomR seed buf)

/-- The congruential sequence, for an array that is too short for a table -/
def congruential (seed : Word) (i : ℕ) : ℕ :=
  (fun x => (1103515245*x+12345) % 2^31)^[i] (firstWord seed).toNat

/-- The first values of the table -/
def filled (seed : Word) (i : ℕ) : Word :=
  if i = 0 then firstWord seed else BitVec.ofInt 32 (16807^i*(firstWord seed).toInt % 2147483647)

/-- The sequence of sums -/
def sums (type : ℕ) (seed : Word) : ℕ → Word :=
  lagged (degrees type) (seps type) fun j => filled seed ((seps type+j) % degrees type)

/-- The `i`-th number after a seed. The table has then been around ten times. -/
def randomValue (type : ℕ) (seed : Word) (i : ℕ) : Word :=
  if type = 0 then BitVec.ofNat 32 (congruential seed (i+1))
  else sums type seed (11*degrees type+i) >>> 1

/-- The numbers that the sequences give to a program: `i` have been taken since the last seed. -/
def randomValues (type : ℕ) : List RandomOp → Word → ℕ → List Word
  | [], _, _ => []
  | .random :: ops, seed, i => randomValue type seed i :: randomValues type ops seed (i+1)
  | .srandom seed :: ops, _, _ => randomValues type ops seed 0

section Fill

/-- The two products and their difference are signed words. -/
theorem schrage_fits (w : ℤ) (hlow : -2147483648 ≤ w) (hhigh : w < 2147483648) :
    (16807*w.tmod 127773).natAbs < 2147483648 ∧ (2836*w.tdiv 127773).natAbs < 2147483648 ∧
      (16807*w.tmod 127773-2836*w.tdiv 127773).natAbs < 2147483647 := by
  have hdiv := Int.mul_tdiv_add_tmod w 127773
  obtain hneg | hpos := lt_or_ge w 0
  · have hnonneg := Int.tmod_nonneg 127773 (a := -w) (by omega)
    have hlt := Int.tmod_lt_of_pos (-w) (b := 127773) (by omega)
    rw [Int.neg_tmod] at hnonneg hlt
    omega
  · have hnonneg := Int.tmod_nonneg 127773 hpos
    have hlt := Int.tmod_lt_of_pos w (b := 127773) (by omega)
    omega

theorem nextWord_eq (w : ℤ) (hw : -2147483648 ≤ w ∧ w < 2147483648) :
    nextWord w = 16807*w % 2147483647 := by
  have hdiv := Int.mul_tdiv_add_tmod w 127773
  obtain ⟨-,-,hfits⟩ := schrage_fits w hw.1 hw.2
  simp only [nextWord]
  split <;> omega

theorem nextWord_iterate (seed : Word) (k : ℕ) :
    nextWord^[k+1] seed.toInt = 16807^(k+1)*seed.toInt % 2147483647 := by
  have hlow : -2147483648 ≤ seed.toInt := by simpa using seed.le_toInt
  have hhigh : seed.toInt < 2147483648 := by simpa using seed.toInt_lt
  apply iterate_emod (fun w => -2147483648 ≤ w ∧ w < 2147483648) nextWord_eq
  · intro w
    omega
  · exact ⟨hlow,hhigh⟩

/-- What the loop leaves in the table -/
theorem fillLoop_apply (n i : ℕ) (word : ℤ) (state : ℕ → Word) (j : ℕ) :
    fillLoop n i word state j =
      if i ≤ j ∧ j < i+n then BitVec.ofInt 32 (nextWord^[j-i+1] word) else state j := by
  induction n generalizing i word state with
  | zero => rw [fillLoop, if_neg (by omega)]
  | succ n ih =>
    rw [fillLoop, ih]
    obtain hlt | rfl | hgt := Nat.lt_trichotomy j i
    · rw [if_neg (by omega), if_neg (by omega), Function.update_of_ne hlt.ne]
    · rw [if_neg (by omega), if_pos (by omega), Function.update_self, Nat.sub_self,
        Function.iterate_one]
    · have hsub : j-i+1 = j-(i+1)+1+1 := by omega
      rw [hsub, Function.iterate_succ_apply (f := nextWord) (n := j-(i+1)+1),
        Function.update_of_ne hgt.ne']
      refine if_congr (by omega) rfl rfl

theorem fillLoop_filled (seed : Word) (state : ℕ → Word) {d j : ℕ} (hj : j < d) :
    fillLoop (d-1) 1 (firstWord seed).toInt (Function.update state 0 (firstWord seed)) j =
      filled seed j := by
  rw [fillLoop_apply, filled]
  obtain rfl | hpos := Nat.eq_zero_or_pos j
  · rw [if_neg (by omega), if_pos rfl, Function.update_self]
  · rw [if_pos (by omega), if_neg hpos.ne', nextWord_iterate, Nat.sub_add_cancel hpos]

end Fill

section Draw
variable {buf : RandomData} {type i : ℕ} {seed : Word}

/-- The sizes are those of the type. -/
structure RandomData.Sized (type : ℕ) (buf : RandomData) : Prop where
  randType : buf.randType = type
  deg : buf.randDeg = degrees type
  sep : buf.randSep = seps type
  endPtr : buf.endPtr = degrees type

/-- The table after `n` calls -/
structure RandomData.Turned (type : ℕ) (seed : Word) (n : ℕ) (buf : RandomData) : Prop where
  sized : buf.Sized type
  fptr : buf.fptr = (seps type+n) % degrees type
  rptr : buf.rptr = n % degrees type
  recent : Recent (degrees type) (seps type) buf.state (sums type seed) n

/-- `i` numbers have been taken since the last seed. -/
def RandomData.Drawn (type : ℕ) (seed : Word) (i : ℕ) (buf : RandomData) : Prop :=
  if type = 0 then buf.Sized 0 ∧ buf.state 0 = BitVec.ofNat 32 (congruential seed i)
  else buf.Turned type seed (10*degrees type+i)

/-- The two values that are added are less than one round apart. -/
theorem seps_lt_degrees (hpos : type ≠ 0) (hle : type < 5) :
    0 < seps type ∧ seps type < degrees type := by
  interval_cases type
  · exact absurd rfl hpos
  all_goals decide

theorem degrees_le (type : ℕ) : degrees type ≤ 63 := by
  unfold degrees
  split <;> decide

theorem sums_add (hpos : type ≠ 0) (hle : type < 5) (n : ℕ) :
    sums type seed (n+degrees type) =
      sums type seed n + sums type seed (n+degrees type-seps type) := by
  obtain ⟨hsep,hdeg⟩ := seps_lt_degrees hpos hle
  exact lagged_add hsep (hsep.trans hdeg) n

/-- The lowest bit is dropped. -/
theorem sshiftRight_one_and (x : Word) : x.sshiftRight 1 &&& 0x7fffffff#32 = x >>> 1 := by
  have hmask : 0x7fffffff#32 = BitVec.allOnes 32 >>> 1 := by decide
  rw [hmask]
  ext i hi
  rw [BitVec.getElem_and, BitVec.getElem_sshiftRight, BitVec.getElem_ushiftRight,
    BitVec.getElem_ushiftRight, BitVec.getLsbD_allOnes]
  split
  next h => rw [decide_eq_true h, Bool.and_true, BitVec.getLsbD_eq_getElem]
  next h => rw [decide_eq_false h, Bool.and_false, BitVec.getLsbD_of_ge _ _ (by omega)]

theorem randomR_table (hpos : buf.randType ≠ 0) :
    randomR buf = ((buf.state buf.fptr+buf.state buf.rptr) >>> 1,
      {buf with
        state := Function.update buf.state buf.fptr (buf.state buf.fptr+buf.state buf.rptr)
        fptr := if buf.endPtr ≤ buf.fptr+1 then 0 else buf.fptr+1
        rptr := if buf.endPtr ≤ buf.fptr+1 then buf.rptr+1
          else if buf.endPtr ≤ buf.rptr+1 then 0 else buf.rptr+1}) := by
  simp only [randomR, if_neg hpos, sshiftRight_one_and]
  split <;> rfl

/-- What the two pointers are at is the next value of the sequence. -/
theorem RandomData.Turned.val (h : buf.Turned type seed i) (hpos : type ≠ 0) (hle : type < 5) :
    buf.state buf.fptr + buf.state buf.rptr = sums type seed (i+degrees type) := by
  obtain ⟨hsep,hdeg⟩ := seps_lt_degrees hpos hle
  have hfront := h.recent 0 (hsep.trans hdeg)
  have hrear := h.recent (degrees type-seps type) (by omega)
  have hround : seps type+i+(degrees type-seps type) = i+degrees type := by omega
  rw [hround, Nat.add_mod_right, ← Nat.add_sub_assoc hdeg.le] at hrear
  rw [Nat.add_zero, Nat.add_zero] at hfront
  rw [h.fptr, h.rptr, hfront, hrear, sums_add hpos hle]

/-- A call returns the next value and turns the table by one. The two pointers are less than one
round apart, so that they do not go back to the start in the same call. -/
theorem RandomData.Turned.randomR (h : buf.Turned type seed i) (hpos : type ≠ 0) (hle : type < 5) :
    (randomR buf).1 = sums type seed (i+degrees type) >>> 1 ∧
      (randomR buf).2.Turned type seed (i+1) := by
  obtain ⟨hsep,hdeg⟩ := seps_lt_degrees hpos hle
  have hd : 0 < degrees type := hsep.trans hdeg
  have hrecent := h.recent.push
  rw [← h.val hpos hle, ← h.fptr] at hrecent
  have hfront := succ_mod_eq (seps type+i) (degrees type) hd
  have hrear := succ_mod_eq i (degrees type) hd
  have happart : i % degrees type ≠ (seps type+i) % degrees type := by
    have hne : (i+0) % degrees type ≠ (i+seps type) % degrees type := slot_ne hsep hdeg
    rwa [Nat.add_zero, Nat.add_comm i] at hne
  have hfrontLt := Nat.mod_lt (seps type+i) hd
  have hrearLt := Nat.mod_lt i hd
  have htype : buf.randType ≠ 0 := by rw [h.sized.randType]; exact hpos
  rw [randomR_table htype]
  refine ⟨by rw [h.val hpos hle],⟨h.sized.1,h.sized.2,h.sized.3,h.sized.4⟩,?_,?_,hrecent⟩
  · simp only [h.sized.endPtr, h.fptr]
    rw [← Nat.add_assoc, hfront]
    split_ifs <;> omega
  · simp only [h.sized.endPtr, h.fptr, h.rptr]
    rw [hrear]
    split_ifs <;> omega

theorem iterate_turned (h : buf.Turned type seed i) (hpos : type ≠ 0) (hle : type < 5) (n : ℕ) :
    ((fun buf => (randomR buf).2)^[n] buf).Turned type seed (n+i) := by
  induction n with
  | zero => rwa [Nat.zero_add]
  | succ n ih =>
    rw [Function.iterate_succ_apply', Nat.add_right_comm]
    exact (ih.randomR hpos hle).2

theorem congruential_succ (seed : Word) (i : ℕ) :
    congruential seed (i+1) = (1103515245*congruential seed i+12345) % 2^31 :=
  Function.iterate_succ_apply' _ i _

theorem congruential_val (seed : Word) (i : ℕ) :
    (BitVec.ofNat 32 (congruential seed i) * 1103515245#32 + 12345#32) &&& 0x7fffffff#32 =
      BitVec.ofNat 32 (congruential seed (i+1)) := by
  apply BitVec.eq_of_toNat_eq
  have hmask : (0x7fffffff#32).toNat = 2^31-1 := by decide
  rw [← BitVec.ofNat_mul, ← BitVec.ofNat_add, BitVec.toNat_and, hmask,
    Nat.and_two_pow_sub_one_eq_mod, congruential_succ, BitVec.toNat_ofNat, BitVec.toNat_ofNat,
    Nat.mod_mod_of_dvd _ (by decide), Nat.mul_comm]
  exact (Nat.mod_eq_of_lt ((Nat.mod_lt _ (by decide)).trans (by decide))).symm

/-- A call on either kind of generator -/
theorem RandomData.Drawn.random (h : buf.Drawn type seed i) (hle : type < 5) :
    (randomR buf).1 = randomValue type seed i ∧ (randomR buf).2.Drawn type seed (i+1) := by
  rw [Drawn] at h
  rw [Drawn, randomValue]
  obtain rfl | hpos := eq_or_ne type 0
  · rw [if_pos rfl] at h
    obtain ⟨hsized,hstate⟩ := h
    rw [if_pos rfl, if_pos rfl, randomR, if_pos hsized.randType, hstate, congruential_val]
    exact ⟨rfl,⟨hsized.1,hsized.2,hsized.3,hsized.4⟩,by simp⟩
  · rw [if_neg hpos] at h
    rw [if_neg hpos, if_neg hpos]
    have hdraw := h.randomR hpos hle
    have hround : 10*degrees type+i+degrees type = 11*degrees type+i := by omega
    rwa [hround] at hdraw

/-- A seed starts the sequence anew, whatever the table holds. -/
theorem RandomData.Sized.srandom (h : buf.Sized type) (hle : type < 5) (seed : Word) :
    ∃ b, srandomR seed buf = some b ∧ b.Drawn type seed 0 := by
  have hgap : ¬5 ≤ buf.randType := by rw [h.randType]; omega
  rw [srandomR, if_neg hgap]
  obtain rfl | hpos := eq_or_ne type 0
  · rw [if_pos h.randType]
    refine ⟨_,rfl,?_⟩
    rw [Drawn, if_pos rfl]
    refine ⟨⟨h.1,h.2,h.3,h.4⟩,?_⟩
    simp [congruential]
  · rw [if_neg (by rw [h.randType]; exact hpos)]
    refine ⟨_,rfl,?_⟩
    obtain ⟨hsep,hdeg⟩ := seps_lt_degrees hpos hle
    rw [Drawn, if_neg hpos, Nat.mul_comm 10, ← h.deg]
    apply iterate_turned ?_ hpos hle
    refine ⟨⟨h.1,h.2,h.3,h.4⟩,?_,?_,?_⟩
    · exact h.sep.trans (Nat.mod_eq_of_lt hdeg).symm
    · exact (Nat.zero_mod _).symm
    · intro j hj
      rw [sums, Nat.zero_add, lagged_of_lt hj, Nat.add_zero]
      simp only [h.deg]
      exact fillLoop_filled seed buf.state (Nat.mod_lt _ (by omega))

theorem RandomData.Drawn.sized (h : buf.Drawn type seed i) : buf.Sized type := by
  rw [Drawn] at h
  split at h
  next hzero => rw [hzero]; exact h.1
  next => exact h.sized

theorem runRandom_drawn (hle : type < 5) (ops : List RandomOp) (h : buf.Drawn type seed i) :
    runRandom ops buf = some (randomValues type ops seed i) := by
  induction ops generalizing buf seed i with
  | nil => rfl
  | cons op ops ih =>
    cases op with
    | random =>
      obtain ⟨hval,hnext⟩ := h.random hle
      simp only [runRandom, ih hnext, hval, randomValues]
      rfl
    | srandom seed =>
      obtain ⟨b,hb,hnext⟩ := h.sized.srandom hle seed
      rw [runRandom, hb, randomValues]
      exact ih hnext

theorem typeOf_lt {n type : ℕ} (h : typeOf n = some type) : type < 5 := by
  unfold typeOf at h
  split_ifs at h <;> (obtain rfl := Option.some.inj h; decide)

theorem RandomData.Drawn.header (h : buf.Drawn type seed i) (header : Word) :
    {buf with header := header}.Drawn type seed i := by
  rw [Drawn] at h ⊢
  split at h
  next hzero => rw [if_pos hzero]; exact ⟨⟨h.1.1,h.1.2,h.1.3,h.1.4⟩,h.2⟩
  next hpos => rw [if_neg hpos]; exact ⟨⟨h.1.1,h.1.2,h.1.3,h.1.4⟩,h.2,h.3,h.4⟩

theorem initstateR_drawn {n : ℕ} (h : typeOf n = some type) (seed : Word) (argState : ℕ → Word)
    (buf : RandomData) : ∃ b, initstateR seed argState n buf = some b ∧ b.Drawn type seed 0 := by
  rw [initstateR, h]
  simp only [Option.bind_eq_bind, Option.bind_some]
  generalize hbuf : ({buf with
    state := argState, randType := type, randDeg := degrees type, randSep := seps type,
    endPtr := degrees type} : RandomData) = sizedBuf
  have hsized : sizedBuf.Sized type := by rw [← hbuf]; exact ⟨rfl,rfl,rfl,rfl⟩
  obtain ⟨b,hb,hdrawn⟩ := hsized.srandom (typeOf_lt h) seed
  rw [hb]
  exact ⟨_,rfl,hdrawn.header _⟩

/-- Whatever array a program starts from and however often it sets a new seed, the numbers that it
gets are those of the sequence for the size of the array: the congruential one for less than 32
bytes, else sums of two earlier values without their lowest bit. -/
theorem initstate_runRandom (ops : List RandomOp) (seed : Word) (argState : ℕ → Word) (n : ℕ)
    (buf : RandomData) :
    (initstateR seed argState n buf).bind (runRandom ops) =
      (typeOf n).map fun type => randomValues type ops seed 0 := by
  cases htype : typeOf n with
  | none => rw [initstateR, htype]; rfl
  | some type =>
    have hle := typeOf_lt htype
    obtain ⟨b,hb,hdrawn⟩ := initstateR_drawn htype seed argState buf
    rw [hb]
    exact runRandom_drawn (typeOf_lt htype) ops hdrawn

end Draw
end DistributedPis
