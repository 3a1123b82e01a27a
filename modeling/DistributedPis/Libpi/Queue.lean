import DistributedPis.Library.Path

/-! The intrusive queue of `libpi/libc/Q.h`. A queue header holds pointers to nodes; the `next`
field of every node is kept in one map, which all queues over the same nodes share. -/
namespace DistributedPis
open Library
variable {α : Type*}

/-- `Q_t` -/
structure Queue (α : Type*) where
  head : Option α
  tail : Option α
  cnt : ℕ
  deriving DecidableEq

namespace Queue

/-- A zeroed header. -/
def zero : Queue α := ⟨none,none,0⟩

def empty (q : Queue α) : Bool := q.head.isNone

/-- What `Q_empty` asserts when it finds no head. -/
def EmptyChecks (q : Queue α) : Prop := q.head = none → q.cnt = 0 ∧ q.tail = none

/-- Remove from the front. -/
def pop (next : α → Option α) (q : Queue α) : Option α × Queue α :=
  match q.head with
  | none => (none, q)
  | some e => (some e, ⟨next e, if next e = none then none else q.tail, q.cnt-1⟩)

variable [DecidableEq α]

/-- Insert at the tail. -/
def append (next : α → Option α) (q : Queue α) (e : α) : (α → Option α) × Queue α :=
  let next := Function.update next e none
  match q.tail with
  | none => (next, ⟨some e, some e, q.cnt+1⟩)
  | some t => (Function.update next t (some e), ⟨q.head, some e, q.cnt+1⟩)

/-- Insert at the head. -/
def push (next : α → Option α) (q : Queue α) (e : α) : (α → Option α) × Queue α :=
  (Function.update next e q.head, ⟨some e, if q.tail = none then some e else q.tail, q.cnt+1⟩)

end Queue

/-- The header `q` stands for the nodes `xs`, first one at the head. -/
structure IsQueue (next : α → Option α) (q : Queue α) (xs : List α) : Prop where
  path : Path next q.head xs none
  tail : q.tail = xs.getLast?
  cnt : q.cnt = xs.length

namespace IsQueue
variable {next next' : α → Option α} {q : Queue α} {xs : List α} {x e : α}

theorem zero : IsQueue next .zero [] := ⟨rfl,rfl,rfl⟩

theorem nodup (h : IsQueue next q xs) : xs.Nodup := path_nodup h.path

theorem unique {ys : List α} (h : IsQueue next q xs) (h' : IsQueue next q ys) : xs = ys :=
  path_unique h.path h'.path

theorem congr (h : IsQueue next q xs) (hn : ∀ x ∈ xs, next' x = next x) : IsQueue next' q xs :=
  ⟨path_congr hn h.path, h.tail, h.cnt⟩

theorem head (h : IsQueue next q xs) : q.head = xs.head? := by
  cases xs with
  | nil => exact h.path
  | cons x xs => exact h.path.1

theorem empty_iff (h : IsQueue next q xs) : q.empty = true ↔ xs = [] := by
  rw [Queue.empty, h.head]
  cases xs <;> simp

theorem emptyChecks (h : IsQueue next q xs) : q.EmptyChecks := by
  intro hh
  rw [h.head] at hh
  obtain rfl := List.head?_eq_none_iff.mp hh
  exact ⟨h.cnt,h.tail⟩

theorem pop (h : IsQueue next q (x::xs)) :
    (q.pop next).1 = some x ∧ IsQueue next (q.pop next).2 xs := by
  have hhead : q.head = some x := h.path.1
  have hrest : Path next (next x) xs none := h.path.2
  have htail := h.tail
  have hcnt := h.cnt
  rw [Queue.pop, hhead]
  refine ⟨rfl, hrest, ?_, by simp [hcnt]⟩
  cases xs with
  | nil => have hn : next x = none := hrest; simp [hn]
  | cons y ys => obtain ⟨hn,_⟩ := hrest; simp [hn, htail]

variable [DecidableEq α]

theorem push (h : IsQueue next q xs) (he : e ∉ xs) :
    IsQueue (q.push next e).1 (q.push next e).2 (e::xs) := by
  refine ⟨path_push he h.path, ?_, by simp [Queue.push, h.cnt]⟩
  rw [Queue.push, h.tail]
  cases xs with
  | nil => simp
  | cons y ys => simp

theorem append (h : IsQueue next q xs) (he : e ∉ xs) :
    IsQueue (q.append next e).1 (q.append next e).2 (xs ++ [e]) := by
  rcases List.eq_nil_or_concat' xs with rfl | ⟨ys,t,rfl⟩
  · have htail : q.tail = none := h.tail
    have hhead : q.head = none := h.path
    simp only [Queue.append, htail]
    exact ⟨⟨rfl, Function.update_self ..⟩, rfl, by simp [h.cnt]⟩
  · have htail : q.tail = some t := by simp [h.tail]
    simp only [Queue.append, htail]
    exact ⟨path_snoc he h.path, by simp, by simp [h.cnt]⟩

end IsQueue

section Frames
variable [DecidableEq α] (next : α → Option α) (q : Queue α) (e : α)

/-- A push writes only the new node. -/
theorem push_next_of_ne {x : α} (h : x ≠ e) : (q.push next e).1 x = next x :=
  Function.update_of_ne h _ _

/-- An append writes only the new node and the old tail. -/
theorem append_next_of_ne {x : α} (h : x ≠ e) (ht : q.tail ≠ some x) :
    (q.append next e).1 x = next x := by
  unfold Queue.append
  dsimp only
  split
  · exact Function.update_of_ne h _ _
  · rename_i t htail
    have hne : x ≠ t := fun hc => ht (by rw [htail, hc])
    dsimp only
    rw [Function.update_of_ne hne, Function.update_of_ne h]

end Frames

end DistributedPis
