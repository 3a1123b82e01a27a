import DistributedPis.Libpi.Random

/-! The one generator of `pi-random.c`. It starts itself at the first call, and checks the first
number of its default seed then. -/
namespace DistributedPis
open Library

/-- The static variables of `pi-random.c`; the table of `r` is the one in `statebuf`. -/
structure PiRandom where
  initialized : Bool
  r : RandomData

namespace PiRandom

/-- `pi_random_seed`; there is no result where an assertion fails. -/
def seed (x : Word) (g : PiRandom) : Option PiRandom := do
  let r ← initstateR x g.r.state 128 ⟨0,0,0,fun _ => 0,0,0,0,0⟩
  let r ← srandomR x r
  return ⟨true,r⟩

/-- `pi_random`, once there is a seed -/
def draw (g : PiRandom) : Word × PiRandom := ((randomR g.r).1,{g with r := (randomR g.r).2})

/-- `pi_random_init` -/
def init (g : PiRandom) : Option (Word × PiRandom) :=
  if g.initialized then none
  else do
    let g ← g.seed 0
    if g.draw.1 = 0x6b8b4567#32 then return g.draw else none

/-- `pi_random` -/
def random (g : PiRandom) : Option (Word × PiRandom) :=
  if g.initialized then some g.draw
  else do
    let (_,g) ← g.init
    return {g with initialized := true}.draw

end PiRandom

inductive PiCall where
  | init
  | seed (x : Word)
  | random

/-- One call, with the number that it returns -/
def PiRandom.call (g : PiRandom) : PiCall → Option (Option Word × PiRandom)
  | .init => do let (u,g) ← g.init; return (some u,g)
  | .seed x => do return (none,← g.seed x)
  | .random => do let (u,g) ← g.random; return (some u,g)

/-- The seed and how many numbers have been taken since, once there is a seed. The first number of
the default seed goes to `pi_random_init`, and a second start stops the program. -/
def piSequence : Option (Word × ℕ) → PiCall → Option (Option Word × Option (Word × ℕ))
  | none, .init => some (some (randomValue 3 0 0),some (0,1))
  | none, .random => some (some (randomValue 3 0 1),some (0,2))
  | some _, .init => none
  | some (x,i), .random => some (some (randomValue 3 x i),some (x,i+1))
  | _, .seed x => some (none,some (x,0))

section Default

/-- The number that `pi_random_init` asserts -/
theorem randomValue_default : randomValue 3 0 0 = 0x6b8b4567#32 := by
  have hstart : ((List.range 31).map fun j => sums 3 0 (0+j)) =
      (List.range 31).map fun j => filled 0 ((3+j) % 31) := by
    refine List.map_congr_left fun j hj => ?_
    rw [Nat.zero_add]
    exact lagged_of_lt (List.mem_range.mp hj)
  have hsums (n : ℕ) : sums 3 0 (n+31) = sums 3 0 n + sums 3 0 (n+28) :=
    sums_add (by decide) (by decide) n
  have hrun := advance_map hsums (by decide) 311 0
  rw [hstart] at hrun
  have hvalue : (advance 28 311 ((List.range 31).map fun j => filled 0 ((3+j) % 31)))[30]?.map
      (fun w : Word => w >>> 1) = some 0x6b8b4567#32 := by decide +kernel
  rw [hrun, List.getElem?_map, List.getElem?_range (by decide), Option.map_some,
    Option.map_some] at hvalue
  have htype : (3 : ℕ) ≠ 0 := by decide
  rw [randomValue, if_neg htype]
  exact Option.some.inj hvalue

end Default

/-- The generator is where the sequence is. -/
def PiRandom.Follows (g : PiRandom) : Option (Word × ℕ) → Prop
  | none => g.initialized = false
  | some (x,i) => g.initialized = true ∧ g.r.Drawn 3 x i

section Calls
variable {g : PiRandom} {x : Word} {i : ℕ}

theorem PiRandom.seed_follows (x : Word) (g : PiRandom) :
    ∃ g', g.seed x = some g' ∧ g'.Follows (some (x,0)) := by
  have htype : typeOf 128 = some 3 := by decide
  obtain ⟨r,hr,hdrawn⟩ := initstateR_drawn htype x g.r.state ⟨0,0,0,fun _ => 0,0,0,0,0⟩
  obtain ⟨r',hr',hdrawn'⟩ := hdrawn.sized.srandom (by decide) x
  refine ⟨⟨true,r'⟩,?_,rfl,hdrawn'⟩
  simp only [seed, hr, hr', Option.bind_eq_bind, Option.bind_some]
  rfl

theorem PiRandom.Follows.draw (h : g.Follows (some (x,i))) :
    g.draw.1 = randomValue 3 x i ∧ g.draw.2.Follows (some (x,i+1)) := by
  obtain ⟨hval,hnext⟩ := h.2.random (by decide)
  exact ⟨hval,h.1,hnext⟩

/-- The assertion on the first number holds. -/
theorem PiRandom.Follows.init (h : g.Follows none) :
    ∃ g', g.init = some (randomValue 3 0 0,g') ∧ g'.Follows (some (0,1)) := by
  obtain ⟨g₁,hseed,hfollows⟩ := g.seed_follows 0
  obtain ⟨hval,hnext⟩ := hfollows.draw
  refine ⟨g₁.draw.2,?_,hnext⟩
  have hflag : g.initialized = false := h
  rw [PiRandom.init, hflag, hseed, if_neg Bool.false_ne_true]
  simp only [Option.bind_eq_bind, Option.bind_some]
  rw [if_pos (hval.trans randomValue_default), ← hval]
  rfl

theorem PiRandom.Follows.call {t : Option (Word × ℕ)} (h : g.Follows t) (c : PiCall) :
    g.call c = none ∧ piSequence t c = none ∨
      ∃ v g' t', g.call c = some (v,g') ∧ piSequence t c = some (v,t') ∧ g'.Follows t' := by
  cases c with
  | seed x =>
    obtain ⟨g',hseed,hfollows⟩ := g.seed_follows x
    right
    refine ⟨none,g',some (x,0),?_,?_,hfollows⟩
    · simp only [PiRandom.call, hseed]
      rfl
    · cases t <;> rfl
  | init =>
    cases t with
    | none =>
      obtain ⟨g',hinit,hfollows⟩ := h.init
      right
      refine ⟨_,g',_,?_,rfl,hfollows⟩
      simp only [PiRandom.call, hinit]
      rfl
    | some p =>
      left
      refine ⟨?_,rfl⟩
      have hflag : g.initialized = true := h.1
      simp only [PiRandom.call, PiRandom.init, hflag]
      rfl
  | random =>
    right
    cases t with
    | none =>
      obtain ⟨g₁,hinit,hfollows⟩ := h.init
      have hflag : g.initialized = false := h
      have hset : {g₁ with initialized := true} = g₁ := by rw [← hfollows.1]
      obtain ⟨hval,hnext⟩ := hfollows.draw
      refine ⟨_,g₁.draw.2,_,?_,rfl,hnext⟩
      simp only [PiRandom.call, PiRandom.random, hflag, hinit, ← hval]
      rw [if_neg Bool.false_ne_true]
      simp only [Option.bind_eq_bind, Option.bind_some, hset]
      rfl
    | some p =>
      obtain ⟨hval,hnext⟩ := PiRandom.Follows.draw (x := p.1) (i := p.2) h
      have hflag : g.initialized = true := h.1
      refine ⟨_,g.draw.2,_,?_,rfl,hnext⟩
      simp only [PiRandom.call, PiRandom.random, hflag, ← hval]
      rfl

end Calls

/-- For any calls the numbers are those of the sequence of the last seed, the assertions hold, and
nothing but a start after the first call stops the program. -/
theorem piRandom_follows (r : RandomData) (cs : List PiCall) :
    (answersM PiRandom.call ⟨false,r⟩ cs).map Prod.fst =
      (answersM piSequence none cs).map Prod.fst := by
  have hstart : PiRandom.Follows ⟨false,r⟩ none := rfl
  exact answersM_eq (R := PiRandom.Follows) (fun _ _ c h => PiRandom.Follows.call h c) hstart cs

end DistributedPis
