import DistributedPis.Library.Ring
import DistributedPis.Library.Bytes

/-! The job queue of `circular-queue.c`: a ring of elements in one block of bytes. An `int` is an
integer whose arithmetic fails outside 32 bits, and a copy fails outside the block. -/
namespace DistributedPis
open Library

/-- The value of an `int` expression, where it has one. -/
def int32 (z : ℤ) : Option ℤ := if -2^31 ≤ z ∧ z < 2^31 then some z else none

theorem int32_eq {z : ℤ} (hlo : 0 ≤ z) (hhi : z < 2^31) : int32 z = some z :=
  if_pos ⟨by omega, hhi⟩

/-- The loop of `mod`. -/
def modLoop : ℕ → ℤ → ℤ → ℤ → Option ℤ
  | 0, _, _, _ => none
  | fuel+1, quotient, dividend, divisor =>
    if divisor ≤ dividend then do
      let dividend ← int32 (dividend-divisor)
      let quotient ← int32 (quotient+1)
      modLoop fuel quotient dividend divisor
    else some dividend

def mod (fuel : ℕ) (dividend divisor : ℤ) : Option ℤ := modLoop fuel 0 dividend divisor

/-- Each round takes the divisor off, so that the loop ends with the remainder. -/
theorem modLoop_eq {fuel dividend divisor : ℕ} {quotient : ℤ} (hd : 0 < divisor)
    (hq : 0 ≤ quotient) (hlt : quotient + dividend < 2^31) (hfuel : dividend / divisor < fuel) :
    modLoop fuel quotient dividend divisor = some ((dividend % divisor : ℕ) : ℤ) := by
  induction fuel generalizing dividend quotient with
  | zero => exact absurd hfuel (Nat.not_lt_zero _)
  | succ fuel ih =>
    rw [modLoop]
    by_cases hle : divisor ≤ dividend
    · have hdiv : dividend / divisor = (dividend-divisor) / divisor + 1 :=
        Nat.div_eq_sub_div hd hle
      have hmod : dividend % divisor = (dividend-divisor) % divisor := Nat.mod_eq_sub_mod hle
      have hsub : (dividend : ℤ) - divisor = ((dividend-divisor : ℕ) : ℤ) := by omega
      rw [if_pos (by omega), hsub, int32_eq (by omega) (by omega), int32_eq (by omega) (by omega),
        hmod]
      exact ih (by omega) (by omega) (by omega)
    · rw [if_neg (by omega), Nat.mod_eq_of_lt (by omega)]

/-- `mod` terminates on every divisor above zero. -/
theorem mod_eq {fuel dividend divisor : ℕ} (hd : 0 < divisor) (hlt : dividend < 2^31)
    (hfuel : dividend / divisor < fuel) :
    mod fuel dividend divisor = some ((dividend % divisor : ℕ) : ℤ) :=
  modLoop_eq hd le_rfl (by omega) hfuel

/-- `CircularQueue`; `data` points to a block of `size` bytes. -/
structure CircularQueue where
  data : ℕ → UInt8
  size : ℕ
  elementSize : ℤ
  front : ℤ
  rear : ℤ
  count : ℤ
  capacity : ℤ

/-- A call with what its `value` points to. -/
inductive QueueCall
  | enqueue (value : ℕ → UInt8)
  | dequeue (value : ℕ → UInt8)

/-- What a call returns, and what is behind `value` after it. -/
abbrev QueueAnswer := ℕ × (ℕ → UInt8)

namespace CircularQueue

/-- `initializeQueue`; the block that `kmalloc` hands out holds any bytes. -/
def initializeQueue (junk : ℕ → UInt8) (elementSize capacity : ℤ) : Option CircularQueue := do
  let size ← int32 (elementSize*capacity)
  some ⟨junk, (size % 2^32).toNat, elementSize, 0, 0, 0, capacity⟩

def isFull (q : CircularQueue) : Bool := q.count = q.capacity

def isEmpty (q : CircularQueue) : Bool := q.count = 0

/-- Where the copy of the element at index `i` starts, if all of it lies in the block. -/
def offset (q : CircularQueue) (i : ℤ) : Option ℕ := do
  let off ← int32 (i*q.elementSize)
  if 0 ≤ off ∧ 0 ≤ q.elementSize ∧ off + q.elementSize ≤ q.size then some off.toNat else none

def enqueue (fuel : ℕ) (q : CircularQueue) (value : ℕ → UInt8) :
    Option (QueueAnswer × CircularQueue) :=
  if q.isFull then some ((0,value), q)
  else do
    let off ← q.offset q.rear
    let q := {q with data := fill q.data off (block value 0 q.elementSize.toNat)}
    let rear ← mod fuel (← int32 (q.rear+1)) q.capacity
    let count ← int32 (q.count+1)
    some ((1,value), {q with rear, count})

def dequeue (fuel : ℕ) (q : CircularQueue) (value : ℕ → UInt8) :
    Option (QueueAnswer × CircularQueue) :=
  if q.isEmpty then some ((0,value), q)
  else do
    let off ← q.offset q.front
    let value := fill value 0 (block q.data off q.elementSize.toNat)
    let front ← mod fuel (← int32 (q.front+1)) q.capacity
    let count ← int32 (q.count-1)
    some ((1,value), {q with front, count})

def call (fuel : ℕ) (q : CircularQueue) : QueueCall → Option (QueueAnswer × CircularQueue)
  | .enqueue value => q.enqueue fuel value
  | .dequeue value => q.dequeue fuel value

end CircularQueue

/-- The queue as a list of at most `capacity` elements of `elementSize` bytes. -/
def fifoCall (elementSize capacity : ℕ) (xs : List (List UInt8)) :
    QueueCall → QueueAnswer × List (List UInt8)
  | .enqueue value =>
    if xs.length < capacity then ((1,value), xs ++ [block value 0 elementSize])
    else ((0,value), xs)
  | .dequeue value =>
    match xs with
    | [] => ((0,value), [])
    | x::xs => ((1, fill value 0 x), xs)

namespace CircularQueue
variable {q : CircularQueue} {n cap front count : ℕ} {xs : List (List UInt8)}

/-- The element at index `i`. -/
def slot (q : CircularQueue) (i : ℕ) : List UInt8 :=
  block q.data (i*q.elementSize.toNat) q.elementSize.toNat

/-- The elements that the queue holds, the oldest one first. -/
def elements (q : CircularQueue) : List (List UInt8) :=
  ring q.slot q.capacity.toNat q.front.toNat q.count.toNat

/-- The numbers of a queue of `cap` elements of `n` bytes that is used from `front` on. -/
structure Valid (n cap front count : ℕ) (q : CircularQueue) : Prop where
  elementSize_eq : q.elementSize = n
  capacity_eq : q.capacity = cap
  size_eq : q.size = n*cap
  front_eq : q.front = front
  count_eq : q.count = count
  rear_eq : q.rear = ((front+count) % cap : ℕ)
  count_le : count ≤ cap
  front_lt : 0 < cap → front < cap

/-- The queue stands for the list `xs`. -/
def Refines (n cap : ℕ) (q : CircularQueue) (xs : List (List UInt8)) : Prop :=
  ∃ front count, q.Valid n cap front count ∧ q.elements = xs

/-- The element at an index of the ring lies in the block. -/
theorem offset_eq (h : q.Valid n cap front count) (hprod : n*cap < 2^31) {i : ℕ} (hi : i < cap) :
    q.offset i = some (i*n) := by
  have hend : i*n + n ≤ n*cap := Nat.mul_comm n cap ▸ cell_le hi n
  have hcast : (i : ℤ)*(n : ℤ) = ((i*n : ℕ) : ℤ) := (Nat.cast_mul i n).symm
  rw [offset, h.elementSize_eq, h.size_eq, hcast, int32_eq (by omega) (by omega)]
  simp only [Option.bind_eq_bind, Option.bind_some, Int.toNat_natCast]
  exact if_pos ⟨by omega, by omega, by omega⟩

/-- Two elements of the ring do not overlap. -/
theorem slot_fill {i j : ℕ} {bs : List UInt8} (m : ℕ → UInt8) (hlen : bs.length = n)
    (hne : j ≠ i) : block (fill m (i*n) bs) (j*n) n = block m (j*n) n := by
  refine block_congr fun k hk => fill_outside ?_
  rw [hlen]
  rintro ⟨hlo,hhi⟩
  rcases Nat.lt_or_gt_of_ne hne with h | h
  · have hcell := cell_le h n
    omega
  · have hcell := cell_le h n
    omega

theorem slot_fill_self {i : ℕ} {bs : List UInt8} (m : ℕ → UInt8) (hlen : bs.length = n) :
    block (fill m (i*n) bs) (i*n) n = bs := by
  rw [← hlen, block_fill_self]

theorem Valid.elements (h : q.Valid n cap front count) :
    q.elements = ring (fun i => block q.data (i*n) n) cap front count := by
  have hslot : q.slot = fun i => block q.data (i*n) n := by
    funext i
    rw [slot, h.elementSize_eq, Int.toNat_natCast]
  rw [CircularQueue.elements, h.capacity_eq, h.front_eq, h.count_eq, hslot]
  rfl

theorem Valid.elements_length (h : q.Valid n cap front count) : q.elements.length = count := by
  rw [h.elements, ring_length]

/-- The next index of the ring. -/
theorem next_index (fuel : ℕ) {i : ℕ} (hi : i < cap) (hcap : cap < 2^31) :
    (int32 ((i : ℤ)+1)).bind (fun z => mod (fuel+2) z cap) = some (((i+1) % cap : ℕ) : ℤ) := by
  have hdiv : (i+1) / cap < fuel+2 := by
    have hle : (i+1) / cap ≤ 1 := Nat.div_le_of_le_mul (by omega)
    omega
  have hcast : (i : ℤ)+1 = ((i+1 : ℕ) : ℤ) := rfl
  rw [hcast, int32_eq (by omega) (by omega), Option.bind_some]
  exact mod_eq (by omega) (by omega) hdiv

/-- A full queue turns the element away. -/
theorem enqueue_full (h : q.Valid n cap front count) (hfull : count = cap) (fuel : ℕ)
    (value : ℕ → UInt8) : q.enqueue fuel value = some ((0,value), q) := by
  have hq : q.isFull = true := by simp [isFull, h.count_eq, h.capacity_eq, hfull]
  rw [enqueue, if_pos hq]

/-- Any other queue takes it at its end. -/
theorem enqueue_push (h : q.Valid n cap front count) (hprod : n*cap < 2^31) (hcap : cap < 2^31)
    (hlt : count < cap) (fuel : ℕ) (value : ℕ → UInt8) :
    ∃ q', q.enqueue (fuel+2) value = some ((1,value), q') ∧ q'.Valid n cap front (count+1) ∧
      q'.elements = q.elements ++ [block value 0 n] := by
  have hq : ¬ q.isFull = true := by
    have hne : ¬ count = cap := by omega
    simp [isFull, h.count_eq, h.capacity_eq, hne]
  have hrear : (front+count) % cap < cap := Nat.mod_lt _ (by omega)
  have hnext := next_index fuel hrear hcap
  rw [Nat.mod_add_mod, ← h.rear_eq, ← h.capacity_eq] at hnext
  have hcount : int32 (q.count+1) = some ((count+1 : ℕ) : ℤ) := by
    rw [h.count_eq]
    exact int32_eq (by omega) (by omega)
  have hoff := offset_eq h hprod hrear
  rw [← h.rear_eq] at hoff
  have hvalid : Valid n cap front (count+1) {q with
      data := fill q.data ((front+count) % cap * n) (block value 0 q.elementSize.toNat)
      rear := ((front+count+1) % cap : ℕ), count := ((count+1 : ℕ) : ℤ)} :=
    {h with count_eq := rfl, rear_eq := rfl, count_le := hlt}
  refine ⟨_, ?_, hvalid, ?_⟩
  · rw [enqueue, if_neg hq, hoff]
    simp only [Option.bind_eq_bind, Option.bind_some]
    rw [← Option.bind_assoc, hnext, Option.bind_some, hcount]
    rfl
  · rw [hvalid.elements, h.elements, h.elementSize_eq, Int.toNat_natCast]
    exact ring_push _ hlt (fun i hi => slot_fill q.data block_length hi)
      (slot_fill_self q.data block_length)

/-- An empty queue has nothing to give. -/
theorem dequeue_empty (h : q.Valid n cap front count) (hempty : count = 0) (fuel : ℕ)
    (value : ℕ → UInt8) : q.dequeue fuel value = some ((0,value), q) := by
  have hq : q.isEmpty = true := by simp [isEmpty, h.count_eq, hempty]
  rw [dequeue, if_pos hq]

/-- Any other queue gives the element at its front. -/
theorem dequeue_pop (h : q.Valid n cap front (count+1)) (hprod : n*cap < 2^31)
    (hcap : cap < 2^31) (fuel : ℕ) (value : ℕ → UInt8) :
    ∃ x q', q.dequeue (fuel+2) value = some ((1, fill value 0 x), q') ∧
      q'.Valid n cap ((front+1) % cap) count ∧ q.elements = x :: q'.elements := by
  have hq : ¬ q.isEmpty = true := by
    have hne : ¬ ((count+1 : ℕ) : ℤ) = 0 := by omega
    simp only [isEmpty, h.count_eq, hne, decide_false, Bool.false_eq_true, not_false_eq_true]
  have hpos : 0 < cap := by
    have hle := h.count_le
    omega
  have hnext := next_index fuel (h.front_lt hpos) hcap
  rw [← h.front_eq, ← h.capacity_eq] at hnext
  have hcount : int32 (q.count-1) = some (count : ℤ) := by
    have hle := h.count_le
    rw [h.count_eq]
    have hcast : ((count+1 : ℕ) : ℤ)-1 = count := by omega
    rw [hcast]
    exact int32_eq (by omega) (by omega)
  have hoff := offset_eq h hprod (h.front_lt hpos)
  rw [← h.front_eq] at hoff
  have hvalid : Valid n cap ((front+1) % cap) count {q with
      front := ((front+1) % cap : ℕ), count := (count : ℤ)} := by
    refine {h with
      front_eq := rfl, count_eq := rfl, rear_eq := ?_, count_le := ?_, front_lt := ?_}
    · have hadd : front+1+count = front+(count+1) := by omega
      rw [Nat.mod_add_mod, hadd]
      exact h.rear_eq
    · exact Nat.le_of_succ_le h.count_le
    · exact fun _ => Nat.mod_lt _ hpos
  refine ⟨block q.data (front*n) n, _, ?_, hvalid, ?_⟩
  · rw [dequeue, if_neg hq, hoff]
    simp only [Option.bind_eq_bind, Option.bind_some]
    rw [← Option.bind_assoc, hnext, Option.bind_some, hcount, h.elementSize_eq, Int.toNat_natCast]
    rfl
  · rw [hvalid.elements, h.elements, ring_pop, Nat.mod_eq_of_lt (h.front_lt hpos)]

/-- One call follows the list, and a call that answers 0 leaves the queue as it was. -/
theorem Refines.call (h : q.Refines n cap xs) (hprod : n*cap < 2^31) (hcap : cap < 2^31)
    (fuel : ℕ) (c : QueueCall) :
    ∃ q', q.call (fuel+2) c = some ((fifoCall n cap xs c).1, q') ∧
      q'.Refines n cap (fifoCall n cap xs c).2 ∧ ((fifoCall n cap xs c).1.1 = 0 → q' = q) := by
  obtain ⟨front,count,hvalid,rfl⟩ := h
  have hlen := hvalid.elements_length
  have hle := hvalid.count_le
  cases c with
  | enqueue value =>
    by_cases hlt : count < cap
    · obtain ⟨q',hcall,hvalid',hel⟩ := enqueue_push hvalid hprod hcap hlt fuel value
      rw [fifoCall, if_pos (by omega)]
      exact ⟨q', hcall, ⟨front,count+1,hvalid',hel⟩, fun h => absurd h Nat.one_ne_zero⟩
    · rw [fifoCall, if_neg (by omega)]
      exact ⟨q, enqueue_full hvalid (by omega) _ value, ⟨front,count,hvalid,rfl⟩, fun _ => rfl⟩
  | dequeue value =>
    cases count with
    | zero =>
      have hnil := List.eq_nil_of_length_eq_zero hlen
      rw [hnil, fifoCall]
      exact ⟨q, dequeue_empty hvalid rfl _ value, ⟨front,0,hvalid,hnil⟩, fun _ => rfl⟩
    | succ count =>
      obtain ⟨x,q',hcall,hvalid',hel⟩ := dequeue_pop hvalid hprod hcap fuel value
      rw [hel, fifoCall]
      exact ⟨q', hcall, ⟨_,count,hvalid',rfl⟩, fun h => absurd h Nat.one_ne_zero⟩

theorem initializeQueue_refines (junk : ℕ → UInt8) (hprod : n*cap < 2^31) :
    ∃ q, initializeQueue junk n cap = some q ∧ q.size = n*cap ∧ q.Refines n cap [] := by
  have hcast : (n : ℤ)*(cap : ℤ) = ((n*cap : ℕ) : ℤ) := (Nat.cast_mul n cap).symm
  have hmod : (((n*cap : ℕ) : ℤ) % 2^32).toNat = n*cap := by omega
  refine ⟨⟨junk,n*cap,n,0,0,0,cap⟩, ?_, rfl, 0, 0, ⟨rfl,rfl,rfl,rfl,rfl,?_,?_,?_⟩, rfl⟩
  · rw [initializeQueue, hcast, int32_eq (by omega) (by omega), Option.bind_eq_bind,
      Option.bind_some, hmod]
  · simp
  · exact Nat.zero_le _
  · exact id

end CircularQueue

/-- A queue whose block is within an `int` is a list of at most `capacity` elements in every run:
no copy leaves the block, every `mod` ends, every call answers as the list does, and one that
answers 0 changes nothing. -/
theorem circularQueue_fifo (junk : ℕ → UInt8) (elementSize capacity : ℕ)
    (hcap : capacity < 2^31) (hprod : elementSize*capacity < 2^31) (fuel : ℕ)
    (calls : List QueueCall) :
    ∃ q₀ q, CircularQueue.initializeQueue junk elementSize capacity = some q₀ ∧
      q₀.size = elementSize*capacity ∧
      answersM (CircularQueue.call (fuel+2)) q₀ calls =
        some ((answers (fifoCall elementSize capacity) [] calls).1, q) ∧
      q.elements = (answers (fifoCall elementSize capacity) [] calls).2 ∧
      q.elements.length ≤ capacity ∧
      ∀ c, ∃ q', q.call (fuel+2) c = some ((fifoCall elementSize capacity q.elements c).1, q') ∧
        q'.elements = (fifoCall elementSize capacity q.elements c).2 ∧
        ((fifoCall elementSize capacity q.elements c).1.1 = 0 → q' = q) := by
  obtain ⟨q₀,hinit,hsize,hrefines⟩ :=
    CircularQueue.initializeQueue_refines junk hprod
  have hstep : ∀ q xs c, CircularQueue.Refines elementSize capacity q xs →
      ∃ q', q.call (fuel+2) c = some ((fifoCall elementSize capacity xs c).1, q') ∧
        q'.Refines elementSize capacity (fifoCall elementSize capacity xs c).2 := by
    intro q xs c h
    obtain ⟨q',hcall,hrefines,_⟩ := h.call hprod hcap fuel c
    exact ⟨q',hcall,hrefines⟩
  obtain ⟨q,hrun,front,count,hvalid,hel⟩ := answersM_simulates hstep hrefines calls
  refine ⟨q₀, q, hinit, hsize, hrun, hel, ?_, fun c => ?_⟩
  · rw [hvalid.elements_length]
    exact hvalid.count_le
  · obtain ⟨q',hcall,⟨_,_,_,hel'⟩,hsame⟩ :=
      CircularQueue.Refines.call ⟨front,count,hvalid,rfl⟩ hprod hcap fuel c
    exact ⟨q',hcall,hel',hsame⟩

/-- Around a ring of two elements of three bytes. -/
theorem circularQueue_fifo_two :
    ∃ q₀ q as, CircularQueue.initializeQueue (fun _ => 0) 3 2 = some q₀ ∧
      answersM (CircularQueue.call 2) q₀ [.enqueue fun _ => 1, .enqueue fun _ => 2,
        .enqueue fun _ => 3, .dequeue fun _ => 0, .enqueue fun _ => 4] = some (as,q) ∧
      as.map Prod.fst = [1,1,0,1,1] ∧ q.elements = [[2,2,2],[4,4,4]] := by
  obtain ⟨q₀,q,hinit,_,hrun,hel,_⟩ := circularQueue_fifo (fun _ => 0) 3 2 (by decide) (by decide) 0
    [.enqueue fun _ => 1, .enqueue fun _ => 2, .enqueue fun _ => 3, .dequeue fun _ => 0,
      .enqueue fun _ => 4]
  exact ⟨q₀, q, _, hinit, hrun, rfl, hel⟩

end DistributedPis
