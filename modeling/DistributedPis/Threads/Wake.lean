import DistributedPis.Threads.Sched
import DistributedPis.Libpi.Queues
import Mathlib

/-! The sleep list: its records in the order in which the threads fell asleep. `wake` takes out
those whose time has come and leaves the others as they are. -/
namespace DistributedPis
open Library

/-- The sleep list with its tail pointer and counter. Its records come out of the first
`kmallocs` allocations. -/
structure IsSleepList (link : ℕ → Option ℕ) (sleepTail : ℕ) (sleeping : ℤ) (kmallocs : ℕ)
    (ns : List ℕ) : Prop where
  path : Path link (some 0) (0::ns) none
  tail : (0::ns).getLast? = some sleepTail
  sleeping : sleeping = ns.length
  old : ∀ n ∈ ns, n ≤ kmallocs
  few : ns.length ≤ kmallocs

namespace IsSleepList
variable {link : ℕ → Option ℕ} {sleepTail kmallocs : ℕ} {sleeping : ℤ} {ns : List ℕ}

/-- The list as it is linked. -/
lemma zero : IsSleepList (fun _ => none) 0 0 0 [] :=
  ⟨⟨rfl,rfl⟩, rfl, rfl, by simp, le_rfl⟩

lemma next_head (h : IsSleepList link sleepTail sleeping kmallocs ns) : link 0 = ns.head? := by
  obtain ⟨_,hp⟩ := h.path
  cases ns with
  | nil => exact hp
  | cons n ns => exact hp.1

/-- A new record goes to the end. -/
theorem enlist (h : IsSleepList link sleepTail sleeping kmallocs ns) :
    IsSleepList
      (Function.update (Function.update link (kmallocs+1) none) sleepTail (some (kmallocs+1)))
      (kmallocs+1) (sleeping+1) (kmallocs+1) (ns ++ [kmallocs+1]) := by
  have hfresh : kmallocs+1 ∉ 0::ns := by
    intro hm
    rcases List.mem_cons.mp hm with h0 | hm
    · omega
    · have := h.old _ hm; omega
  obtain ⟨xs,hxs⟩ := List.getLast?_eq_some_iff.mp h.tail
  refine ⟨?_, by rw [← List.cons_append, List.getLast?_concat], by simp [h.sleeping], ?_,
    by have := h.few; simp; omega⟩
  · rw [← List.cons_append, hxs]
    exact path_snoc (hxs ▸ hfresh) (hxs ▸ h.path)
  · intro n hn
    rcases List.mem_append.mp hn with hn | hn
    · have := h.old n hn; omega
    · simp at hn; omega

/-- Taking out a record in the middle or at the end; `prev` is the one before it. -/
theorem remove {kept rest : List ℕ} {prev n : ℕ}
    (h : IsSleepList link sleepTail sleeping kmallocs (kept ++ n::rest))
    (hprev : (0::kept).getLast? = some prev) :
    IsSleepList (Function.update link prev (link n)) (if sleepTail = n then prev else sleepTail)
      (sleeping-1) kmallocs (kept ++ rest) := by
  obtain ⟨xs,hxs⟩ := List.getLast?_eq_some_iff.mp hprev
  have hpath := h.path
  have htail := h.tail
  have hlen := h.sleeping
  have hfew := h.few
  simp only [List.length_append, List.length_cons] at hlen hfew
  rw [← List.cons_append, hxs, List.append_assoc] at hpath
  refine ⟨?_, ?_, by rw [hlen]; simp; omega,
    fun k hk => h.old k (by simp at hk ⊢; tauto), by simp; omega⟩
  · rw [← List.cons_append, hxs, List.append_assoc]
    exact path_unlink (path_nodup hpath) hpath
  · rw [← List.cons_append, hxs, List.append_assoc] at htail ⊢
    cases rest with
    | nil => simp at htail; simp [htail]
    | cons m ms =>
      have hlast : (prev::m::ms).getLast? = some sleepTail := by simpa using htail
      -- the record taken out is not the last one, so the tail stays
      have hne : sleepTail ≠ n := by
        rintro rfl
        have hnd := path_nodup hpath
        have hmem : sleepTail ∈ m::ms := List.mem_of_getLast? (by simpa using hlast)
        simp only [List.singleton_append, List.nodup_append, List.nodup_cons] at hnd
        exact hnd.2.1.2.1 hmem
      rw [if_neg hne]
      simpa using hlast

/-- The links around a record. -/
lemma links {kept rest : List ℕ} {prev n : ℕ}
    (h : IsSleepList link sleepTail sleeping kmallocs (kept ++ n::rest))
    (hprev : (0::kept).getLast? = some prev) :
    link prev = some n ∧ link n = rest.head? ∧ n ≠ prev := by
  obtain ⟨xs,hxs⟩ := List.getLast?_eq_some_iff.mp hprev
  have hpath := h.path
  have hnd := path_nodup hpath
  rw [← List.cons_append, hxs, List.append_assoc] at hpath hnd
  obtain ⟨_,_,hpath⟩ := path_append.mp hpath
  obtain ⟨rfl,hn,hrest⟩ := hpath
  refine ⟨hn, ?_, ?_⟩
  · cases rest with
    | nil => exact hrest
    | cons m ms => exact hrest.1
  · simp [List.nodup_append] at hnd
    grind

/-- The tail is the last record, else the list head. -/
theorem tail_eq (h : IsSleepList link sleepTail sleeping kmallocs ns) :
    sleepTail = ns.getLast?.getD 0 := by
  have htail := h.tail
  rw [List.getLast?_cons, Option.some.injEq] at htail
  exact htail.symm

end IsSleepList

namespace Sched
variable {s u : Sched} {now : BitVec 32} {ns : List ℕ}

/-- The threads of these records go to the front of their queues, one after the other. -/
def pushAll (s : Sched) (ns : List ℕ) : Sched :=
  ns.foldl (fun s n => s.push (s.node n).queue (s.node n).tcb) s

/-- The records whose time has come, in list order. -/
def ripe (s : Sched) (now : BitVec 32) (ns : List ℕ) : List ℕ :=
  ns.filter fun n => (s.node n).due now

/-- The other ones. -/
def unripe (s : Sched) (now : BitVec 32) (ns : List ℕ) : List ℕ :=
  ns.filter fun n => !(s.node n).due now

/-- The sleep list is replaced. -/
def relist (s : Sched) (link : ℕ → Option ℕ) (sleepTail : ℕ) (sleeping : ℤ) : Sched :=
  { s with link := link, sleepTail := sleepTail, sleeping := sleeping }

@[simp] lemma pushAll_nil (s : Sched) : s.pushAll [] = s := rfl
@[simp] lemma pushAll_cons (s : Sched) (n : ℕ) (ns : List ℕ) : s.pushAll (n::ns) =
    (s.push (s.node n).queue (s.node n).tcb).pushAll ns := rfl

lemma pushAll_relist (s : Sched) (ns : List ℕ) (link : ℕ → Option ℕ) (sleepTail : ℕ)
    (sleeping : ℤ) : (s.relist link sleepTail sleeping).pushAll ns =
      (s.pushAll ns).relist link sleepTail sleeping := by
  induction ns generalizing s with
  | nil => rfl
  | cons n ns ih => exact ih (s.push (s.node n).queue (s.node n).tcb)

/-- Pushing writes next pointers and queue headers only. -/
lemma pushAll_frame (s : Sched) (ns : List ℕ) : s.pushAll ns =
    { s with next := (s.pushAll ns).next, queues := (s.pushAll ns).queues } := by
  induction ns generalizing s with
  | nil => rfl
  | cons n ns ih => exact ih (s.push (s.node n).queue (s.node n).tcb)

@[simp] lemma pushAll_node (s : Sched) (ns : List ℕ) : (s.pushAll ns).node = s.node := by
  rw [pushAll_frame]

@[simp] lemma pushAll_kmallocs (s : Sched) (ns : List ℕ) :
    (s.pushAll ns).kmallocs = s.kmallocs := by
  rw [pushAll_frame]

/-- Every thread pushed gets to its own queue, once, in front of those pushed before it. -/
theorem pushAll_queues (s : Sched) (ns : List ℕ) {qs : Fin 5 → List ℕ}
    (h : AreQueues s.next s.queues qs)
    (hnd : (((ns.map fun n => (s.node n).tcb : List ℕ) : Multiset ℕ) + gather qs).Nodup) :
    AreQueues (s.pushAll ns).next (s.pushAll ns).queues fun k =>
      ((ns.filter fun n => (s.node n).queue = k).map fun n => (s.node n).tcb).reverse ++ qs k := by
  induction ns generalizing s qs with
  | nil => exact h
  | cons n ns ih =>
    have hmem : (s.node n).tcb ∉ gather qs := by
      rw [List.map_cons, ← Multiset.cons_coe, Multiset.cons_add, Multiset.nodup_cons] at hnd
      exact fun hg => hnd.1 (Multiset.mem_add.mpr (Or.inr hg))
    have hone := h.push (s.node n).queue hmem
    have hrest : (((ns.map fun n => (s.node n).tcb : List ℕ) : Multiset ℕ) +
        gather (Function.update qs (s.node n).queue
          ((s.node n).tcb :: qs (s.node n).queue))).Nodup := by
      rwa [gather_cons, Multiset.add_cons, ← Multiset.cons_add, Multiset.cons_coe]
    have hlists : (fun k => (((n::ns).filter fun n => (s.node n).queue = k).map
        fun n => (s.node n).tcb).reverse ++ qs k) = fun k =>
          ((ns.filter fun n => (s.node n).queue = k).map fun n => (s.node n).tcb).reverse ++
            Function.update qs (s.node n).queue ((s.node n).tcb :: qs (s.node n).queue) k := by
      funext k
      by_cases hk : (s.node n).queue = k
      · subst hk
        simp
      · simp [hk, Function.update_of_ne (Ne.symm hk)]
    rw [hlists]
    exact ih (s.push (s.node n).queue (s.node n).tcb) hone hrest

/-- The waking loop comes to its end, having looked at every record behind `prev` once. -/
lemma wakeLoop_unlinks (now : BitVec 32) {kept rest : List ℕ} {fuel prev a : ℕ}
    (h : IsSleepList s.link s.sleepTail s.sleeping s.kmallocs (kept ++ rest))
    (hprev : (0::kept).getLast? = some prev) (hfuel : rest.length ≤ fuel) :
    ∃ link sleepTail sleeping,
      s.wakeLoop now fuel prev rest.head? a =
        some ((s.pushAll (s.ripe now rest)).relist link sleepTail sleeping,
          a + (s.ripe now rest).length) ∧
      IsSleepList link sleepTail sleeping s.kmallocs (kept ++ s.unripe now rest) := by
  induction rest generalizing s kept fuel prev a with
  | nil =>
    refine ⟨s.link, s.sleepTail, s.sleeping, ?_, h⟩
    cases fuel <;> rfl
  | cons n rest ih =>
    obtain ⟨fuel,rfl⟩ : ∃ k, fuel = k+1 := ⟨fuel-1, by simp at hfuel; omega⟩
    have hfuel' : rest.length ≤ fuel := by simpa using hfuel
    obtain ⟨hn,hnext,hne⟩ := h.links hprev
    cases hdue : (s.node n).due now with
    | true =>
      have hlink : (s.rouse prev n).link n = rest.head? := by
        rw [← hnext]
        exact Function.update_of_ne hne _ _
      have hripe : s.ripe now (n::rest) = n :: s.ripe now rest := by simp [ripe, hdue]
      have hunripe : s.unripe now (n::rest) = s.unripe now rest := by simp [unripe, hdue]
      have hsame : (s.rouse prev n).ripe now rest = s.ripe now rest := rfl
      have hrouse : s.rouse prev n = (s.push (s.node n).queue (s.node n).tcb).relist
          (Function.update s.link prev (s.link n)) (if s.sleepTail = n then prev else s.sleepTail)
          (s.sleeping-1) := rfl
      obtain ⟨link,sleepTail,sleeping,hu,hlist⟩ := ih (s := s.rouse prev n) (a := a+1)
        (h.remove hprev) hprev hfuel'
      refine ⟨link, sleepTail, sleeping, ?_, by rw [hunripe]; exact hlist⟩
      rw [List.head?_cons, Sched.wakeLoop, if_pos hdue, hlink, hu, hsame, hripe, pushAll_cons,
        hrouse, pushAll_relist, List.length_cons]
      congr 2
      omega
    | false =>
      have hskip :
          IsSleepList s.link s.sleepTail s.sleeping s.kmallocs ((kept ++ [n]) ++ rest) := by
        simpa using h
      have hlast : (0::(kept ++ [n])).getLast? = some n := by
        rw [← List.cons_append, List.getLast?_concat]
      have hripe : s.ripe now (n::rest) = s.ripe now rest := by simp [ripe, hdue]
      have hunripe : s.unripe now (n::rest) = n :: s.unripe now rest := by simp [unripe, hdue]
      obtain ⟨link,sleepTail,sleeping,hu,hlist⟩ := ih (a := a) hskip hlast hfuel'
      refine ⟨link, sleepTail, sleeping, ?_, by rw [hunripe]; simpa using hlist⟩
      rw [List.head?_cons, Sched.wakeLoop, if_neg (by simp [hdue]), hn, Option.bind_some, hnext, hu,
        hripe]

theorem wake_unlinks (h : IsSleepList s.link s.sleepTail s.sleeping s.kmallocs ns)
    (now : BitVec 32) :
    ∃ link sleepTail sleeping,
      s.wake now = some ((s.pushAll (s.ripe now ns)).relist link sleepTail sleeping,
        (s.ripe now ns).length) ∧
      IsSleepList link sleepTail sleeping s.kmallocs (s.unripe now ns) := by
  have hall : IsSleepList s.link s.sleepTail s.sleeping s.kmallocs ([] ++ ns) := h
  have hhead : (0::([] : List ℕ)).getLast? = some 0 := rfl
  obtain ⟨link,sleepTail,sleeping,hu,hlist⟩ := wakeLoop_unlinks (a := 0) now hall hhead h.few
  refine ⟨link, sleepTail, sleeping, ?_, hlist⟩
  rw [Sched.wake, h.next_head, hu, Nat.zero_add]

/-- A call of `wake` at time `now` made `s` into `u` and returned `awoke`, the sleep list being
`ns`. -/
structure Woken (now : BitVec 32) (ns : List ℕ) (s u : Sched) (awoke : ℕ) : Prop where
  count : awoke = (s.ripe now ns).length
  kept : IsSleepList u.link u.sleepTail u.sleeping u.kmallocs (s.unripe now ns)
  tail : u.sleepTail = (s.unripe now ns).getLast?.getD 0
  sleeping : u.sleeping = s.sleeping - awoke
  /-- Besides the sleep list, only the pushes change anything. -/
  pushed : u = (s.pushAll (s.ripe now ns)).relist u.link u.sleepTail u.sleeping
  queues : ∀ qs, AreQueues s.next s.queues qs →
    ((((s.ripe now ns).map fun n => (s.node n).tcb : List ℕ) : Multiset ℕ) + gather qs).Nodup →
      AreQueues u.next u.queues fun k =>
        (((s.ripe now ns).filter fun n => (s.node n).queue = k).map
          fun n => (s.node n).tcb).reverse ++ qs k
  /-- The next thread that falls asleep gets behind the ones kept. -/
  sleep : ∀ delay later t, IsSleepList (u.sleep delay later t).link
    (u.sleep delay later t).sleepTail (u.sleep delay later t).sleeping
      (u.sleep delay later t).kmallocs (s.unripe now ns ++ [u.kmallocs+1])
  /-- Whatever the clock has wrapped to, the delay is over. -/
  notEarly : ∀ n ∈ s.ripe now ns, ∀ elapsed : ℕ,
    now = (s.node n).startTm + BitVec.ofNat 32 elapsed → (s.node n).delay.toNat ≤ elapsed

lemma length_ripe (s : Sched) (now : BitVec 32) (ns : List ℕ) :
    (s.ripe now ns).length + (s.unripe now ns).length = ns.length := by
  have hperm := List.filter_append_perm (fun n => (s.node n).due now) ns
  rw [← hperm.length_eq, List.length_append]
  rfl

lemma delay_le_elapsed {n : SleepTcb} {elapsed : ℕ} (hdue : n.due now = true)
    (hnow : now = n.startTm + BitVec.ofNat 32 elapsed) : n.delay.toNat ≤ elapsed := by
  have hle : n.delay ≤ now - n.startTm := by simpa [SleepTcb.due] using hdue
  have hsub : now - n.startTm = BitVec.ofNat 32 elapsed := by
    rw [hnow, BitVec.add_comm, BitVec.add_sub_cancel]
  rw [hsub, BitVec.le_def, BitVec.toNat_ofNat] at hle
  exact hle.trans (Nat.mod_le _ _)

theorem wake_filters (h : IsSleepList s.link s.sleepTail s.sleeping s.kmallocs ns)
    (now : BitVec 32) : ∃ u awoke, s.wake now = some (u, awoke) ∧ Woken now ns s u awoke := by
  obtain ⟨link,sleepTail,sleeping,hu,hlist⟩ := wake_unlinks h now
  refine ⟨_, _, hu, ?_⟩
  have hkept : IsSleepList link sleepTail sleeping
      ((s.pushAll (s.ripe now ns)).relist link sleepTail sleeping).kmallocs (s.unripe now ns) := by
    rw [show ((s.pushAll (s.ripe now ns)).relist link sleepTail sleeping).kmallocs = s.kmallocs from
      pushAll_kmallocs s _]
    exact hlist
  exact
    { count := rfl
      kept := hkept
      tail := hlist.tail_eq
      sleeping := by
        have hlen := length_ripe s now ns
        have hnew : sleeping = (s.unripe now ns).length := hlist.sleeping
        change sleeping = s.sleeping - _
        rw [hnew, h.sleeping, ← hlen]
        push_cast
        ring
      pushed := rfl
      queues := fun qs hqs hnd => pushAll_queues s _ hqs hnd
      sleep := fun delay later t => hkept.enlist
      notEarly := fun n hn elapsed hnow =>
        delay_le_elapsed (List.mem_filter.mp hn).2 hnow }

/-- The first and the last one of three sleepers are woken, after the clock has wrapped. -/
theorem wake_filters_wrapped :
    ∃ u awoke, (((Sched.zero.sleep 20 0xFFFFFFF0 7).sleep 100 0xFFFFFFF8 8).sleep 1 3 9).wake 5 =
        some (u, awoke) ∧
      Woken 5 [1,2,3] (((Sched.zero.sleep 20 0xFFFFFFF0 7).sleep 100 0xFFFFFFF8 8).sleep 1 3 9) u
        awoke :=
  wake_filters IsSleepList.zero.enlist.enlist.enlist 5

end Sched
end DistributedPis
