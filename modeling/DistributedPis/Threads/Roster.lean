import DistributedPis.Threads.Sched
import DistributedPis.Library.Gather
import Mathlib

/-! Where the threads are, without pointers: five lists of ready threads, the sleeping ones in
the order in which they fell asleep, and the one that runs. No operation of the scheduler
makes or loses a thread. -/
namespace DistributedPis
open Library

structure Roster where
  ready : Fin 5 → List ℕ
  asleep : List SleepTcb
  running : Option ℕ

namespace Roster

/-- Every place a thread can be in. -/
def places (r : Roster) : Multiset ℕ :=
  gather r.ready + ((r.asleep.map SleepTcb.tcb : List ℕ) : Multiset ℕ) +
    (r.running.toList : Multiset ℕ)

def push (r : Roster) (i : Fin 5) (t : ℕ) : Roster :=
  { r with ready := Function.update r.ready i (t :: r.ready i) }

def append (r : Roster) (i : Fin 5) (t : ℕ) : Roster :=
  { r with ready := Function.update r.ready i (r.ready i ++ [t]) }

/-- Queue `i` keeps these threads. -/
def keep (r : Roster) (i : Fin 5) (ts : List ℕ) : Roster :=
  { r with ready := Function.update r.ready i ts }

def run (r : Roster) (t : Option ℕ) : Roster := { r with running := t }

def enlist (r : Roster) (n : SleepTcb) : Roster := { r with asleep := r.asleep ++ [n] }

/-- These threads sleep. -/
def settle (r : Roster) (ns : List SleepTcb) : Roster := { r with asleep := ns }

def rouse (r : Roster) (n : SleepTcb) : Roster := r.push n.queue n.tcb

/-- All sleepers whose time has come go to the front of their queues, one after the other. -/
def wake (now : BitVec 32) (r : Roster) : Roster :=
  ((r.asleep.filter (SleepTcb.due now)).foldl rouse r).settle
    (r.asleep.filter fun n => !n.due now)

/-- Queue `i` ends up in front of the first one, the other way around. -/
def drain (r : Roster) (i : Fin 5) : Roster :=
  (r.keep 0 ((r.ready i).reverse ++ r.ready 0)).keep i []

def resurf (r : Roster) : Roster := ([1,2,3,4] : List (Fin 5)).foldl drain r

section Places
variable (r : Roster) (i : Fin 5) (t : ℕ)

@[simp] theorem places_push : (r.push i t).places = t ::ₘ r.places := by
  simp [places, push, gather_cons]

@[simp] theorem places_append : (r.append i t).places = t ::ₘ r.places := by
  simp [places, append, gather_concat]

theorem places_keep {ts : List ℕ} (h : r.ready i = t::ts) :
    r.places = t ::ₘ (r.keep i ts).places := by
  simp [places, keep, gather_tail r.ready h]

@[simp] theorem places_enlist (n : SleepTcb) : (r.enlist n).places = n.tcb ::ₘ r.places := by
  simp only [places, enlist, List.map_append, List.map_cons, List.map_nil, ← Multiset.coe_add,
    Multiset.coe_singleton, ← Multiset.singleton_add]
  ac_rfl

theorem places_run (h : r.running = some t) : r.places = t ::ₘ (r.run none).places := by
  simp only [places, run, h, Option.toList_some, Option.toList_none, Multiset.coe_singleton,
    Multiset.coe_nil, add_zero, ← Multiset.singleton_add]
  ac_rfl

theorem places_start (h : r.running = none) : (r.run (some t)).places = t ::ₘ r.places := by
  rw [places_run (r.run (some t)) t rfl]
  congr 1
  simp [places, run, h]

end Places

lemma places_settle (r : Roster) (ns : List SleepTcb) :
    (r.settle ns).places = ((ns.map SleepTcb.tcb : List ℕ) : Multiset ℕ) + (r.settle []).places := by
  simp only [places, settle, List.map_nil, Multiset.coe_nil, add_zero]
  ac_rfl

lemma places_foldl_rouse (r : Roster) (ns as : List SleepTcb) :
    ((ns.foldl rouse r).settle as).places =
      ((ns.map SleepTcb.tcb : List ℕ) : Multiset ℕ) + (r.settle as).places := by
  induction ns generalizing r with
  | nil => simp
  | cons n ns ih =>
    have hone : ((r.rouse n).settle as).places = n.tcb ::ₘ (r.settle as).places :=
      places_push (r.settle as) n.queue n.tcb
    rw [List.foldl_cons, ih, hone, List.map_cons, ← Multiset.cons_coe, Multiset.add_cons,
      Multiset.cons_add]

/-- Waking moves threads. -/
theorem places_wake (r : Roster) (now : BitVec 32) : (r.wake now).places = r.places := by
  have hsplit := (List.filter_append_perm (SleepTcb.due now) r.asleep).map SleepTcb.tcb
  have hself : r.places = (r.settle r.asleep).places := rfl
  rw [wake, places_foldl_rouse, places_settle, hself, places_settle r r.asleep, ← add_assoc,
    Multiset.coe_add, ← List.map_append]
  congr 1
  exact Multiset.coe_eq_coe.mpr hsplit

lemma places_drain (r : Roster) {i : Fin 5} (hi : i ≠ 0) : (r.drain i).places = r.places := by
  have hfront := gather_update r.ready 0 ((r.ready i).reverse ++ r.ready 0)
  rw [← Multiset.coe_add, ← add_assoc] at hfront
  have hback := gather_update (r.keep 0 ((r.ready i).reverse ++ r.ready 0)).ready i []
  have hi' : (r.keep 0 ((r.ready i).reverse ++ r.ready 0)).ready i = r.ready i :=
    Function.update_of_ne hi _ _
  rw [hi', Multiset.coe_nil, add_zero] at hback
  have hfront := add_right_cancel hfront
  rw [Multiset.coe_reverse] at hfront
  have hgather : gather (r.drain i).ready = gather r.ready :=
    add_right_cancel (hback.trans hfront)
  simp only [places, hgather]
  rfl

theorem places_resurf (r : Roster) : r.resurf.places = r.places := by
  simp [resurf, places_drain]

section Ready
variable (r : Roster) (now : BitVec 32)

lemma ready_foldl_rouse (ns : List SleepTcb) (k : Fin 5) : (ns.foldl rouse r).ready k =
    ((ns.filter fun n => n.queue = k).map SleepTcb.tcb).reverse ++ r.ready k := by
  induction ns generalizing r with
  | nil => rfl
  | cons n ns ih =>
    rw [List.foldl_cons, ih]
    by_cases hk : n.queue = k
    · subst hk
      simp [rouse, push]
    · simp [rouse, push, hk, Function.update_of_ne (Ne.symm hk)]

/-- Those woken for a queue get to its front, the last one first. -/
theorem ready_wake (k : Fin 5) : (r.wake now).ready k =
    (((r.asleep.filter (SleepTcb.due now)).filter fun n => n.queue = k).map
      SleepTcb.tcb).reverse ++ r.ready k := by
  have hready : (r.wake now).ready k =
      ((r.asleep.filter (SleepTcb.due now)).foldl rouse r).ready k := rfl
  rw [hready, ready_foldl_rouse]

/-- A queue is empty after `wake` when it was before and nobody is woken for it. -/
theorem ready_wake_eq_nil (k : Fin 5) : (r.wake now).ready k = [] ↔
    r.ready k = [] ∧ ∀ n ∈ r.asleep, n.due now = true → n.queue ≠ k := by
  rw [ready_wake]
  simp only [List.append_eq_nil_iff, List.reverse_eq_nil_iff, List.map_eq_nil_iff,
    List.filter_eq_nil_iff, List.mem_filter, decide_eq_true_eq, and_imp]
  tauto

@[simp] lemma running_wake : (r.wake now).running = r.running := by
  have hrun : ∀ (ns : List SleepTcb) (r : Roster), (ns.foldl rouse r).running = r.running := by
    intro ns
    induction ns with
    | nil => exact fun _ => rfl
    | cons n ns ih => exact fun r => ih (r.rouse n)
  exact hrun _ r

lemma ready_resurf {k : Fin 5} (hk : k ≠ 0) : r.resurf.ready k = [] := by
  fin_cases k
  · exact absurd rfl hk
  all_goals simp [resurf, drain, keep, Function.update]

end Ready
end Roster
end DistributedPis
