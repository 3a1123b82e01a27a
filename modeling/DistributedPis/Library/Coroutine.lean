import Mathlib

/-! Coroutines that take turns. They wait in one line, a new one and one that yields at its end; the
main program goes on when all of them have exited. The names of the coroutines are arbitrary, but no
two that live have the same. -/
namespace DistributedPis.Library
variable {ι σ μ : Type}

/-- What a coroutine does next. Nothing comes back from `exit` to what stands behind it. -/
inductive ThreadOp (ι σ : Type) where
  | work (k : σ)
  | fork (child : σ) (k : ι → σ)
  | yield (k : σ)
  | exit (k : σ)

/-- What the main program does next. -/
inductive MainOp (ι σ μ : Type) where
  | work (k : μ)
  | fork (child : σ) (k : ι → μ)
  | start (k : μ)
  | stop

/-- The text of all coroutines and of the main program. -/
structure Coroutines (ι σ μ : Type) where
  thread : σ → ThreadOp ι σ
  main : μ → MainOp ι σ μ

/-- The coroutine that runs, the line of the others, and where the main program is. -/
structure Rounds (ι σ μ : Type) where
  running : Option (ι × σ)
  ready : List (ι × σ)
  main : μ

/-- What a step is about. -/
inductive RoundEvent (ι : Type) where
  | work
  | fork (i : ι)
  | yield
  | exit (i : ι)
  | start
  deriving DecidableEq

namespace Rounds

/-- The coroutines that have not exited. -/
def live (r : Rounds ι σ μ) : List ι := (r.running.toList ++ r.ready).map Prod.fst

/-- One step, of the coroutine that runs or else of the main program. -/
inductive Step (p : Coroutines ι σ μ) : RoundEvent ι → Rounds ι σ μ → Rounds ι σ μ → Prop
  | work {i c k us m} (h : p.thread c = .work k) : Step p .work ⟨some (i,c),us,m⟩ ⟨some (i,k),us,m⟩
  | fork {i c d k us m j} (h : p.thread c = .fork d k) (hj : j ∉ live ⟨some (i,c),us,m⟩) :
    Step p (.fork j) ⟨some (i,c),us,m⟩ ⟨some (i,k j),us ++ [(j,d)],m⟩
  | yield {i c k us m} (h : p.thread c = .yield k) :
    Step p .yield ⟨some (i,c),us,m⟩ ⟨(us ++ [(i,k)]).head?,(us ++ [(i,k)]).tail,m⟩
  | exit {i c k us m} (h : p.thread c = .exit k) :
    Step p (.exit i) ⟨some (i,c),us,m⟩ ⟨us.head?,us.tail,m⟩
  | mainWork {m k us} (h : p.main m = .work k) : Step p .work ⟨none,us,m⟩ ⟨none,us,k⟩
  | mainFork {m d k us j} (h : p.main m = .fork d k) (hj : j ∉ live ⟨none,us,m⟩) :
    Step p (.fork j) ⟨none,us,m⟩ ⟨none,us ++ [(j,d)],k j⟩
  | start {m k us} (h : p.main m = .start k) : Step p .start ⟨none,us,m⟩ ⟨us.head?,us.tail,k⟩

/-- Some steps, the first one first. -/
inductive Steps (p : Coroutines ι σ μ) : List (RoundEvent ι) → Rounds ι σ μ → Rounds ι σ μ → Prop
  | refl (r : Rounds ι σ μ) : Steps p [] r r
  | tail {es e r s t} : Steps p es r s → Step p e s t → Steps p (es ++ [e]) r t

end Rounds

namespace RoundEvent

/-- The next one in the line gets its turn. -/
def turns : RoundEvent ι → ℕ
  | work | fork _ => 0
  | yield | exit _ | start => 1

def forked : RoundEvent ι → Multiset ι
  | work | yield | exit _ | start => 0
  | fork i => {i}

def exited : RoundEvent ι → Multiset ι
  | work | yield | fork _ | start => 0
  | exit i => {i}

end RoundEvent

namespace Rounds
variable {p : Coroutines ι σ μ} {e : RoundEvent ι} {es fs : List (RoundEvent ι)}
  {r s t : Rounds ι σ μ}

/-- How often the next one in the line got its turn. -/
def turns (es : List (RoundEvent ι)) : ℕ := (es.map RoundEvent.turns).sum

def forked (es : List (RoundEvent ι)) : Multiset ι := (es.map RoundEvent.forked).sum

def exited (es : List (RoundEvent ι)) : Multiset ι := (es.map RoundEvent.exited).sum

theorem Steps.trans (h : Steps p es r s) (h' : Steps p fs s t) : Steps p (es ++ fs) r t := by
  induction h' with
  | refl => rwa [List.append_nil]
  | tail _ hstep ih =>
    rw [← List.append_assoc]
    exact (ih h).tail hstep

theorem Steps.head (h : Step p e r s) (h' : Steps p es s t) : Steps p (e::es) r t :=
  ((Steps.refl r).tail h).trans h'

/-- After `j` turns the first `j` of the line have had theirs, the last of them is still running,
and the others of the line are in front of all that came later. -/
structure Turned (r s : Rounds ι σ μ) (j : ℕ) : Prop where
  waiting : r.ready.drop j <+: s.ready
  turn : ∀ k, j = k+1 → s.running.map Prod.fst = (r.ready.map Prod.fst)[k]?

theorem Turned.next {j : ℕ} {us : List (ι × σ)} {m : μ} (h : Turned r s j)
    (hj : j < r.ready.length) (hus : s.ready <+: us) : Turned r ⟨us.head?,us.tail,m⟩ (j+1) := by
  have hwait := h.waiting.trans hus
  rw [List.drop_eq_getElem_cons hj] at hwait
  obtain ⟨vs,rfl⟩ := hwait
  refine ⟨⟨vs,rfl⟩, fun k hk => ?_⟩
  obtain rfl : j = k := Nat.succ.inj hk
  simp [hj]

theorem Step.turned {j : ℕ} (hstep : Step p e s t) (h : Turned r s j)
    (hj : j + e.turns ≤ r.ready.length) : Turned r t (j + e.turns) := by
  cases hstep with
  | work => exact ⟨h.waiting, h.turn⟩
  | fork => exact ⟨h.waiting.trans (List.prefix_append _ _), h.turn⟩
  | yield => exact h.next hj (List.prefix_append _ _)
  | exit => exact h.next hj (List.prefix_refl _)
  | mainWork => exact ⟨h.waiting, h.turn⟩
  | mainFork => exact ⟨h.waiting.trans (List.prefix_append _ _), h.turn⟩
  | start => exact h.next hj (List.prefix_refl _)

/-- Nobody in the line is overtaken. -/
theorem Steps.turned (h : Steps p es r s) (hj : turns es ≤ r.ready.length) :
    Turned r s (turns es) := by
  induction h with
  | refl => exact ⟨List.prefix_refl _, nofun⟩
  | @tail es e r s t _ hstep ih =>
    have hadd : turns (es ++ [e]) = turns es + e.turns := by
      simp [turns]
    rw [hadd] at hj ⊢
    exact hstep.turned (ih (by omega)) hj

/-- The names that live, as a set. -/
def names (r : Rounds ι σ μ) : Multiset ι := (r.live : List ι)

theorem names_running (u : ι × σ) (us : List (ι × σ)) (m : μ) :
    names ⟨some u,us,m⟩ = u.1 ::ₘ names ⟨none,us,m⟩ := rfl

theorem names_append (u : Option (ι × σ)) (us : List (ι × σ)) (v : ι × σ) (m : μ) :
    names ⟨u,us ++ [v],m⟩ = names ⟨u,us,m⟩ + {v.1} := by
  rw [names, live, ← List.append_assoc, List.map_append, ← Multiset.coe_add]
  rfl

theorem names_head_tail (us : List (ι × σ)) (m k : μ) :
    names ⟨us.head?,us.tail,k⟩ = names ⟨none,us,m⟩ := by
  cases us with
  | nil => rfl
  | cons u us => rfl

/-- Who lives was forked and has not exited. -/
theorem Step.names_add (h : Step p e r s) : r.names + e.forked = e.exited + s.names := by
  cases h with
  | work => exact add_comm _ _
  | @fork i c d k us m j =>
    have happend := names_append (some (i,k j)) us (j,d) m
    exact happend.symm.trans (zero_add _).symm
  | @yield i c k us m =>
    rw [names_head_tail _ m, names_append, names_running, ← Multiset.singleton_add]
    exact (add_zero _).trans ((add_comm _ _).trans (zero_add _).symm)
  | @exit i c k us m =>
    rw [names_head_tail _ m, names_running, ← Multiset.singleton_add]
    exact add_zero _
  | mainWork => exact add_comm _ _
  | @mainFork m d k us j =>
    have happend := names_append none us (j,d) (k j)
    exact happend.symm.trans (zero_add _).symm
  | @start m k us =>
    rw [names_head_tail _ m]
    exact add_comm _ _

theorem Step.nodup (h : Step p e r s) (hr : r.names.Nodup) : s.names.Nodup := by
  have hfork : (r.names + e.forked).Nodup := by
    cases h with
    | fork _ hj | mainFork _ hj =>
      rw [RoundEvent.forked, add_comm, Multiset.singleton_add]
      exact Multiset.nodup_cons.mpr ⟨hj, hr⟩
    | work | yield | exit | mainWork | start => rwa [RoundEvent.forked, add_zero]
  rw [h.names_add] at hfork
  exact (Multiset.nodup_add.mp hfork).2.1

theorem Steps.nodup (h : Steps p es r s) (hr : r.names.Nodup) : s.names.Nodup := by
  induction h with
  | refl => exact hr
  | tail _ hstep ih => exact hstep.nodup (ih hr)

theorem Steps.names_add (h : Steps p es r s) : r.names + forked es = exited es + s.names := by
  induction h with
  | refl => exact add_comm _ _
  | @tail es e r s t _ hstep ih =>
    have hforked : forked (es ++ [e]) = forked es + e.forked := by simp [forked]
    have hexited : exited (es ++ [e]) = exited es + e.exited := by simp [exited]
    rw [hforked, hexited, ← add_assoc, ih, add_assoc, hstep.names_add, ← add_assoc]

end Rounds
end DistributedPis.Library
