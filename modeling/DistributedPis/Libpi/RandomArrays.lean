import DistributedPis.Libpi.Random

/-! The generators that a program keeps in several arrays. `setstate_r` puts the one in use away
with its pointer and takes up another; `initstate_r` leaves the one in use without its pointer. -/
namespace DistributedPis
open Library

/-- The second half of `setstate_r`, on an array with `header` in front of the table -/
def loadState (header : Word) (newState : ℕ → Word) (buf : RandomData) : Option RandomData :=
  let type := header.toInt.tmod 5
  if type < 0 ∨ 4 < type then none
  else
    let degree := degrees type.toNat
    let separation := seps type.toNat
    let buf := {buf with randDeg := degree, randSep := separation, randType := type.toNat,
                         header := header, state := newState, endPtr := degree}
    if type = 0 then some buf
    else
      let rear := (header.toInt.tdiv 5).toNat
      some {buf with rptr := rear, fptr := (rear+separation) % degree}

/-- The arrays, each with its header and its table. That at `cur` is the one of `buf`. -/
structure Randoms where
  arrays : ℕ → Word × (ℕ → Word)
  cur : ℕ
  buf : RandomData

/-- What a program does with its arrays -/
inductive ArrayOp where
  | random
  | srandom (seed : Word)
  | initstate (k n : ℕ) (seed : Word)
  | setstate (k : ℕ)

namespace Randoms

/-- The arrays in memory when the one in use has `header` in front -/
def stored (r : Randoms) (header : Word) : ℕ → Word × (ℕ → Word) :=
  Function.update r.arrays r.cur (header,r.buf.state)

/-- One call; there is no result where it returns -1. -/
def call (r : Randoms) : ArrayOp → Option (Option Word × Randoms)
  | .random => some (some (randomR r.buf).1, {r with buf := (randomR r.buf).2})
  | .srandom seed => do return (none, {r with buf := ← srandomR seed r.buf})
  | .initstate k n seed => do
    let arrays := r.stored r.buf.header
    return (none, ⟨arrays,k,← initstateR seed (arrays k).2 n r.buf⟩)
  | .setstate k => do
    let arrays := r.stored (headerOf r.buf)
    return (none, ⟨arrays,k,← loadState (arrays k).1 (arrays k).2 r.buf⟩)

end Randoms

/-- A sequence and how many of its numbers have been taken -/
structure Progress where
  type : ℕ
  seed : Word
  taken : ℕ

/-- One sequence an array, where there is one. `kept` says that nothing has happened to the one in
use since its pointer was put in front of the table. -/
structure Sequences where
  places : ℕ → Option Progress
  cur : ℕ
  kept : Bool

namespace Sequences

/-- The sequence in use is now at `p`. -/
def move (q : Sequences) (p : Progress) : Sequences :=
  ⟨Function.update q.places q.cur (some p),q.cur,false⟩

/-- What a call does to the sequences. No answer is given for a sequence that has been lost: a new
array in place of one that is not kept. -/
def call (q : Sequences) : ArrayOp → Option (Option Word × Sequences)
  | .random => do
    let p ← q.places q.cur
    return (some (randomValue p.type p.seed p.taken), q.move {p with taken := p.taken+1})
  | .srandom seed => do
    let p ← q.places q.cur
    return (none, q.move ⟨p.type,seed,0⟩)
  | .initstate k n seed => do
    let type ← typeOf n
    let places := if q.kept then q.places else Function.update q.places q.cur none
    return (none, ⟨Function.update places k (some ⟨type,seed,0⟩),k,true⟩)
  | .setstate k => do
    let _ ← q.places q.cur
    let _ ← q.places k
    return (none, ⟨q.places,k,true⟩)

end Sequences

/-- The generator is at this place. -/
def RandomData.At (buf : RandomData) (p : Progress) : Prop :=
  p.type < 5 ∧ buf.Drawn p.type p.seed p.taken

/-- The array is one that a generator there was put away in. -/
def Progress.PutAway (p : Progress) (array : Word × (ℕ → Word)) : Prop :=
  ∃ b : RandomData, b.At p ∧ array = (headerOf b,b.state)

/-- The arrays hold the sequences. -/
structure Randoms.Holds (r : Randoms) (q : Sequences) : Prop where
  cur : r.cur = q.cur
  inUse : ∀ p, q.places q.cur = some p → r.buf.At p
  kept : ∀ p, q.places q.cur = some p → q.kept = true → r.buf.header = headerOf r.buf
  others : ∀ k p, k ≠ q.cur → q.places k = some p → p.PutAway (r.arrays k)

section Load
variable {buf b : RandomData} {p : Progress}

theorem toInt_ofNat_of_lt {x : ℕ} (hx : x < 2^31) : (BitVec.ofNat 32 x).toInt = x := by
  have hmod : x % 2^32 = x := Nat.mod_eq_of_lt (by omega)
  rw [BitVec.toInt_eq_toNat_of_lt (by rw [BitVec.toNat_ofNat, hmod]; omega), BitVec.toNat_ofNat,
    hmod]

theorem loadState_table {type rear : ℕ} (hpos : type ≠ 0) (hle : type < 5)
    (hrear : rear < degrees type) (table : ℕ → Word) (buf : RandomData) :
    loadState (BitVec.ofNat 32 (rear*5+type)) table buf =
      some ⟨(rear+seps type) % degrees type,rear,BitVec.ofNat 32 (rear*5+type),table,type,
        degrees type,seps type,degrees type⟩ := by
  have hsize := degrees_le type
  have hint : (BitVec.ofNat 32 (rear*5+type)).toInt = (rear*5+type : ℕ) :=
    toInt_ofNat_of_lt (by omega)
  have hmod : (BitVec.ofNat 32 (rear*5+type)).toInt.tmod 5 = type := by
    rw [hint, Int.tmod_eq_emod_of_nonneg (by omega)]
    omega
  have hdiv : ((BitVec.ofNat 32 (rear*5+type)).toInt.tdiv 5).toNat = rear := by
    rw [hint, Int.tdiv_eq_ediv_of_nonneg (by omega)]
    omega
  simp only [loadState, hmod, hdiv, Int.toNat_natCast]
  rw [if_neg (by omega), if_neg (by omega)]

/-- What has been put away is taken up where it was. -/
theorem loadState_headerOf (h : b.At p) (buf : RandomData) :
    ∃ c, loadState (headerOf b) b.state buf = some c ∧ c.At p ∧ c.header = headerOf c := by
  obtain ⟨hle,hdrawn⟩ := h
  have htype := hdrawn.sized.randType
  obtain hzero | hpos := eq_or_ne p.type 0
  · have hheader : headerOf b = 0 := by rw [headerOf, if_pos (htype.trans hzero)]
    rw [hheader]
    refine ⟨_,rfl,⟨hle,?_⟩,rfl⟩
    rw [RandomData.Drawn, if_pos hzero] at hdrawn ⊢
    exact ⟨⟨rfl,rfl,rfl,rfl⟩,hdrawn.2⟩
  · rw [RandomData.Drawn, if_neg hpos] at hdrawn
    obtain ⟨hsep,hdeg⟩ := seps_lt_degrees hpos hle
    have hrear : b.rptr < degrees p.type := by
      rw [hdrawn.rptr]
      exact Nat.mod_lt _ (by omega)
    rw [headerOf, htype, if_neg hpos]
    refine ⟨_,loadState_table hpos hle hrear b.state buf,⟨hle,?_⟩,(if_neg hpos).symm⟩
    rw [RandomData.Drawn, if_neg hpos]
    refine ⟨⟨rfl,rfl,rfl,rfl⟩,?_,hdrawn.rptr,hdrawn.recent⟩
    simp only [hdrawn.rptr, Nat.mod_add_mod]
    rw [Nat.add_comm]

/-- With the pointer of `j` numbers in front, an array is taken up after `i` of them if and only if
the table has gone round whole times in between. -/
theorem loadState_drawn_iff {type i j : ℕ} {seed : Word} (hpos : type ≠ 0) (hle : type < 5)
    (h : b.Drawn type seed i) (buf : RandomData) :
    ∃ c, loadState (BitVec.ofNat 32 (j % degrees type*5+type)) b.state buf = some c ∧
      (c.Drawn type seed i ↔ i ≡ j [MOD degrees type]) := by
  obtain ⟨hsep,hdeg⟩ := seps_lt_degrees hpos hle
  have hd : 0 < degrees type := hsep.trans hdeg
  rw [RandomData.Drawn, if_neg hpos] at h
  have hround : (10*degrees type+i) % degrees type = i % degrees type := by
    rw [Nat.mul_comm, Nat.mul_add_mod]
  refine ⟨_,loadState_table hpos hle (Nat.mod_lt j hd) b.state buf,?_⟩
  rw [RandomData.Drawn, if_neg hpos]
  constructor
  · intro hc
    have hrptr := hc.rptr
    rw [hround] at hrptr
    exact hrptr.symm
  · intro hmod
    have hrptr : j % degrees type = i % degrees type := hmod.symm
    refine ⟨⟨rfl,rfl,rfl,rfl⟩,?_,hrptr.trans hround.symm,h.recent⟩
    have hturn : seps type+(10*degrees type+i) = degrees type*10+(i+seps type) := by omega
    simp only [hrptr, Nat.mod_add_mod]
    rw [hturn, Nat.mul_add_mod]

theorem randomR_header (buf : RandomData) : (randomR buf).2.header = buf.header := by
  unfold randomR
  split
  · rfl
  · dsimp only
    split <;> rfl

theorem initstateR_header {seed : Word} {argState : ℕ → Word} {n : ℕ}
    (h : initstateR seed argState n buf = some b) : b.header = headerOf b := by
  cases htype : typeOf n with
  | none => simp [initstateR, htype] at h
  | some type =>
    simp only [initstateR, htype, Option.bind_eq_bind, Option.bind_some] at h
    obtain rfl := Option.some.inj h
    rfl

end Load

namespace Randoms.Holds
variable {r : Randoms} {q q' : Sequences} {p : Progress} {v : Option Word}

theorem move (h : r.Holds q) {buf : RandomData} (hbuf : buf.At p) :
    ({r with buf := buf} : Randoms).Holds (q.move p) := by
  refine ⟨h.cur,?_,?_,?_⟩
  · intro p' hp'
    simp only [Sequences.move, Function.update_self] at hp'
    rwa [← Option.some.inj hp']
  · intro p' _ hkept
    cases hkept
  · intro k p' hk hp'
    simp only [Sequences.move] at hk hp'
    rw [Function.update_of_ne hk] at hp'
    exact h.others k p' hk hp'

/-- An array whose header is right can be taken up again. -/
theorem stored (h : r.Holds q) {header : Word} {k : ℕ} (hp : q.places k = some p)
    (hheader : k = q.cur → header = headerOf r.buf) : p.PutAway (r.stored header k) := by
  rw [Randoms.stored, h.cur]
  obtain rfl | hk := eq_or_ne k q.cur
  · rw [Function.update_self, hheader rfl]
    exact ⟨r.buf,h.inUse p hp,rfl⟩
  · rw [Function.update_of_ne hk]
    exact h.others k p hk hp

theorem initstate (h : r.Holds q) {k n type : ℕ} (htype : typeOf n = some type) (seed : Word) :
    ∃ r', r.call (.initstate k n seed) = some (none,r') ∧
      r'.Holds ⟨Function.update (if q.kept then q.places else
        Function.update q.places q.cur none) k (some ⟨type,seed,0⟩),k,true⟩ := by
  obtain ⟨b,hb,hdrawn⟩ := initstateR_drawn htype seed (r.stored r.buf.header k).2 r.buf
  refine ⟨⟨r.stored r.buf.header,k,b⟩,?_,rfl,?_,?_,?_⟩
  · simp only [Randoms.call, hb]
    rfl
  · intro p hp
    simp only [Function.update_self] at hp
    rw [← Option.some.inj hp]
    exact ⟨typeOf_lt htype,hdrawn⟩
  · intro p _ _
    exact initstateR_header hb
  · intro j p hj hp
    dsimp only at hj hp
    rw [Function.update_of_ne hj] at hp
    split at hp
    next hkept => exact h.stored hp fun hcur => h.kept p (by rwa [← hcur]) hkept
    next =>
      obtain rfl | hcur := eq_or_ne j q.cur
      · rw [Function.update_self] at hp
        cases hp
      · rw [Function.update_of_ne hcur] at hp
        exact h.stored hp fun heq => absurd heq hcur

theorem setstate (h : r.Holds q) {k : ℕ} (hp : q.places k = some p) :
    ∃ r', r.call (.setstate k) = some (none,r') ∧ r'.Holds ⟨q.places,k,true⟩ := by
  obtain ⟨b,hb,harray⟩ := h.stored hp fun _ => rfl
  obtain ⟨c,hload,hc,hheader⟩ := loadState_headerOf hb r.buf
  refine ⟨⟨r.stored (headerOf r.buf),k,c⟩,?_,rfl,?_,?_,?_⟩
  · simp only [Randoms.call, harray, hload]
    rfl
  · intro p' hp'
    rw [hp] at hp'
    rwa [← Option.some.inj hp']
  · intro p' _ _
    exact hheader
  · intro j p' _ hp'
    exact h.stored hp' fun _ => rfl

/-- Every call does to the arrays what it does to the sequences, with the same answer. -/
theorem call (h : r.Holds q) (op : ArrayOp) (hq : q.call op = some (v,q')) :
    ∃ r', r.call op = some (v,r') ∧ r'.Holds q' := by
  cases op with
  | random =>
    obtain ⟨p,hp,hq⟩ := Option.bind_eq_some_iff.mp hq
    cases hq
    obtain ⟨hle,hdrawn⟩ := h.inUse p hp
    obtain ⟨hval,hnext⟩ := hdrawn.random hle
    rw [← hval]
    exact ⟨_,rfl,h.move ⟨hle,hnext⟩⟩
  | srandom seed =>
    obtain ⟨p,hp,hq⟩ := Option.bind_eq_some_iff.mp hq
    cases hq
    obtain ⟨hle,hdrawn⟩ := h.inUse p hp
    obtain ⟨b,hb,hnext⟩ := hdrawn.sized.srandom hle seed
    simp only [Randoms.call, hb]
    exact ⟨_,rfl,h.move ⟨hle,hnext⟩⟩
  | initstate k n seed =>
    obtain ⟨type,htype,hq⟩ := Option.bind_eq_some_iff.mp hq
    cases hq
    exact h.initstate htype seed
  | setstate k =>
    obtain ⟨_,_,hq⟩ := Option.bind_eq_some_iff.mp hq
    obtain ⟨p,hp,hq⟩ := Option.bind_eq_some_iff.mp hq
    cases hq
    exact h.setstate hp

end Randoms.Holds

theorem typeOf_isSome {n : ℕ} (hn : 8 ≤ n) : ∃ type, typeOf n = some type := by
  unfold typeOf
  split_ifs <;> first | omega | exact ⟨_,rfl⟩

/-- A generator that `initstate_r` takes out of use and `setstate_r` takes up again is where it was
if and only if its table has gone round whole times since its pointer was last put in front. -/
theorem initstate_setstate_iff (r : Randoms) {type i j : ℕ} {seed : Word} (k n : ℕ)
    (newSeed : Word) (h : r.buf.Drawn type seed i) (hpos : type ≠ 0) (hle : type < 5)
    (hheader : r.buf.header = BitVec.ofNat 32 (j % degrees type*5+type)) (hk : k ≠ r.cur)
    (hn : 8 ≤ n) :
    ∃ r', answersM Randoms.call r [.initstate k n newSeed, .setstate r.cur] =
        some ([none,none],r') ∧ r'.cur = r.cur ∧
      (r'.buf.Drawn type seed i ↔ i ≡ j [MOD degrees type]) := by
  obtain ⟨newType,htype⟩ := typeOf_isSome hn
  obtain ⟨b,hb,-⟩ := initstateR_drawn htype newSeed (r.stored r.buf.header k).2 r.buf
  obtain ⟨c,hc,hiff⟩ := loadState_drawn_iff (j := j) hpos hle h b
  have harray : (⟨r.stored r.buf.header,k,b⟩ : Randoms).stored (headerOf b) r.cur =
      (r.buf.header,r.buf.state) := by
    simp only [Randoms.stored]
    rw [Function.update_of_ne hk.symm, Function.update_self]
  rw [← hheader] at hc
  have hfirst : r.call (.initstate k n newSeed) =
      some (none,⟨r.stored r.buf.header,k,b⟩) := by
    simp only [Randoms.call, hb]
    rfl
  have hsecond : (⟨r.stored r.buf.header,k,b⟩ : Randoms).call (.setstate r.cur) =
      some (none,⟨(⟨r.stored r.buf.header,k,b⟩ : Randoms).stored (headerOf b),r.cur,c⟩) := by
    simp only [Randoms.call, harray, hc]
    rfl
  refine ⟨⟨(⟨r.stored r.buf.header,k,b⟩ : Randoms).stored (headerOf b),r.cur,c⟩,?_,rfl,hiff⟩
  simp only [answersM, hfirst, hsecond, Option.bind_eq_bind, Option.bind_some]

/-- One number is enough to lose it. -/
theorem initstate_setstate_iff_one : ∃ r r' : Randoms, r.buf.Drawn 1 7 1 ∧
    answersM Randoms.call r [.initstate 1 8 5, .setstate 0] = some ([none,none],r') ∧
      ¬r'.buf.Drawn 1 7 1 := by
  have htype : typeOf 32 = some 1 := by decide
  obtain ⟨b,hb,hdrawn⟩ := initstateR_drawn htype 7 (fun _ => 0) ⟨0,0,0,fun _ => 0,0,0,0,0⟩
  have hnext := (hdrawn.random (by decide)).2
  have hheader : (randomR b).2.header = BitVec.ofNat 32 (0 % degrees 1*5+1) := by
    rw [randomR_header, initstateR_header hb, headerOf, hdrawn.sized.randType]
    rw [RandomData.Drawn, if_neg (by decide)] at hdrawn
    rw [hdrawn.rptr]
    decide
  obtain ⟨r',hrun,-,hiff⟩ := initstate_setstate_iff ⟨fun _ => (0,fun _ => 0),0,(randomR b).2⟩ 1 8 5
    hnext (by decide) (by decide) hheader Nat.one_ne_zero (by decide)
  exact ⟨_,r',hnext,hrun,hiff.not.mpr (by decide)⟩

/-- In any order of calls on any arrays every array keeps a sequence of its own, which goes on where
it was left however often others are used in between. -/
theorem randoms_keep_sequences (r : Randoms) {ops : List ArrayOp} {vs : List (Option Word)}
    {q : Sequences} (h : answersM Sequences.call ⟨fun _ => none,r.cur,false⟩ ops = some (vs,q)) :
    ∃ r', answersM Randoms.call r ops = some (vs,r') ∧ r'.Holds q := by
  refine answersM_follows (fun _ _ op _ _ h hq => h.call op hq) ⟨rfl,?_,?_,?_⟩ h
  · intro p hp
    cases hp
  · intro p hp
    cases hp
  · intro k p _ hp
    cases hp

/-- Two arrays in turn -/
theorem randoms_keep_sequences_two :
    ∃ r', answersM Randoms.call ⟨fun _ => (0,fun _ => 0),0,⟨0,0,0,fun _ => 0,0,0,0,0⟩⟩
      [.initstate 0 32 7, .initstate 1 128 8, .random, .setstate 0, .random, .setstate 1, .random] =
        some ([none, none, some (randomValue 3 8 0), none, some (randomValue 1 7 0), none,
          some (randomValue 3 8 1)],r') := by
  obtain ⟨r,hr,-⟩ := @randoms_keep_sequences ⟨fun _ => (0,fun _ => 0),0,⟨0,0,0,fun _ => 0,0,0,0,0⟩⟩
    [.initstate 0 32 7, .initstate 1 128 8, .random, .setstate 0, .random, .setstate 1, .random]
    _ _ rfl
  exact ⟨r,hr⟩

end DistributedPis
