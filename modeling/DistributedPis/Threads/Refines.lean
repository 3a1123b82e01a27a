import DistributedPis.Threads.Roster
import DistributedPis.Threads.Wake

/-! The pointers of the scheduler stand for a roster, and every operation keeps it so: the
thread it moves is on no list at that moment. -/
namespace DistributedPis
open Library

namespace Sched

/-- A block that holds a user thread. -/
def Known (s : Sched) (t : ℕ) : Prop := t < s.nalloced ∧ s.schedulerThread ≠ some t

/-- The scheduler's state stands for the roster `r`, the sleep records being `ns`. -/
structure Sim (s : Sched) (r : Roster) (ns : List ℕ) : Prop where
  queues : AreQueues s.next s.queues r.ready
  sleepers : IsSleepList s.link s.sleepTail s.sleeping s.kmallocs ns
  asleep : r.asleep = ns.map s.node
  user : s.user = r.running
  nodup : r.places.Nodup
  known : ∀ t ∈ r.places, s.Known t
  freeq : s.freeq = .zero
  scheduler : ∀ t, s.schedulerThread = some t → t < s.nalloced

namespace Sim
variable {s : Sched} {r : Roster} {ns : List ℕ} {t : ℕ}

lemma not_ready (ht : t ∉ r.places) : t ∉ gather r.ready := by
  intro h
  exact ht (by simp [Roster.places, h])

lemma known_cons (h : s.Sim r ns) (hk : s.Known t) : ∀ u ∈ t ::ₘ r.places, s.Known u := by
  intro u hu
  rcases Multiset.mem_cons.mp hu with rfl | hu
  · exact hk
  · exact h.known u hu

theorem push (h : s.Sim r ns) (i : Fin 5) (ht : t ∉ r.places) (hk : s.Known t) :
    (s.push i t).Sim (r.push i t) ns where
  queues := h.queues.push i (not_ready ht)
  sleepers := h.sleepers
  asleep := h.asleep
  user := h.user
  nodup := by rw [Roster.places_push]; exact Multiset.nodup_cons.mpr ⟨ht,h.nodup⟩
  known := by rw [Roster.places_push]; exact h.known_cons hk
  freeq := h.freeq
  scheduler := h.scheduler

theorem append (h : s.Sim r ns) (i : Fin 5) (ht : t ∉ r.places) (hk : s.Known t) :
    (s.append i t).Sim (r.append i t) ns where
  queues := h.queues.append i (not_ready ht)
  sleepers := h.sleepers
  asleep := h.asleep
  user := h.user
  nodup := by rw [Roster.places_append]; exact Multiset.nodup_cons.mpr ⟨ht,h.nodup⟩
  known := by rw [Roster.places_append]; exact h.known_cons hk
  freeq := h.freeq
  scheduler := h.scheduler

/-- A thread that leaves its queue is nowhere else. -/
theorem pop (h : s.Sim r ns) {i : Fin 5} {ts : List ℕ} (hi : r.ready i = t::ts) :
    (s.pop i).1 = some t ∧ (s.pop i).2.Sim (r.keep i ts) ns ∧ t ∉ (r.keep i ts).places ∧
      s.Known t := by
  have hq := h.queues.pop hi
  have hplaces := r.places_keep i t hi
  have hnd := h.nodup
  rw [hplaces, Multiset.nodup_cons] at hnd
  refine ⟨hq.1, ?_, hnd.1, h.known t (by simp [hplaces])⟩
  exact
    { queues := hq.2
      sleepers := h.sleepers
      asleep := h.asleep
      user := h.user
      nodup := hnd.2
      known := fun u hu => h.known u (by simp [hplaces, hu])
      freeq := h.freeq
      scheduler := h.scheduler }

/-- Nobody runs while the scheduler does. -/
theorem reenter (h : s.Sim r ns) : s.reenter.Sim (r.run none) ns := by
  have hle : (r.run none).places ≤ r.places := by
    simp only [Roster.places, Roster.run]
    exact add_le_add_right (Multiset.zero_le _) _
  exact
    { queues := h.queues
      sleepers := h.sleepers
      asleep := h.asleep
      user := by simp [Sched.user, Sched.reenter, Roster.run]
      nodup := Multiset.nodup_of_le hle h.nodup
      known := fun u hu => h.known u (Multiset.mem_of_le hle hu)
      freeq := h.freeq
      scheduler := h.scheduler }

/-- The thread that gave up the processor is on no list yet. -/
theorem stopped (h : s.Sim r ns) (ht : s.user = some t) :
    t ∉ (r.run none).places ∧ s.Known t := by
  have hplaces := r.places_run t (h.user ▸ ht)
  have hnd := h.nodup
  rw [hplaces, Multiset.nodup_cons] at hnd
  exact ⟨hnd.1, h.known t (by simp [hplaces])⟩

/-- The scheduler switches to a thread that is on no list. -/
theorem switch (h : s.Sim r ns) (hr : r.running = none) (i : Fin 5) (ht : t ∉ r.places)
    (hk : s.Known t) :
    Sim { s with curQueue := i, curThread := some t } (r.run (some t)) ns where
  queues := h.queues
  sleepers := h.sleepers
  asleep := h.asleep
  user := by simp [Sched.user, Roster.run, hk.2.symm]
  nodup := by rw [Roster.places_start _ _ hr]; exact Multiset.nodup_cons.mpr ⟨ht,h.nodup⟩
  known := by rw [Roster.places_start _ _ hr]; exact h.known_cons hk
  freeq := h.freeq
  scheduler := h.scheduler

theorem dispatch (h : s.Sim r ns) (hr : r.running = none) {i : Fin 5} {ts : List ℕ}
    (hi : r.ready i = t::ts) : (s.dispatch i).Sim ((r.keep i ts).run (some t)) ns := by
  obtain ⟨hpop,hsim,ht,hk⟩ := h.pop hi
  rw [Sched.dispatch, hpop]
  exact hsim.switch hr i ht hk

/-- A thread goes to the end of the sleep list. -/
theorem sleep (h : s.Sim r ns) (ht : s.user = some t) (delay now : BitVec 32) :
    (s.sleep delay now t).Sim ((r.run none).enlist ⟨t, now, delay, s.curQueue⟩)
      (ns ++ [s.kmallocs+1]) := by
  obtain ⟨hfresh,hk⟩ := h.stopped ht
  have hstop := h.reenter
  exact
    { queues := hstop.queues
      sleepers := h.sleepers.enlist
      asleep := by
        have hold : ns.map s.node = ns.map (Function.update s.node (s.kmallocs+1)
            ⟨t, now, delay, s.curQueue⟩) := by
          refine List.map_congr_left fun n hn => ?_
          have := h.sleepers.old n hn
          rw [Function.update_of_ne (by omega)]
        simp only [Roster.enlist, Roster.run, Sched.sleep, Sched.reenter, List.map_append,
          List.map_cons, List.map_nil, Function.update_self, h.asleep, ← hold]
      user := hstop.user
      nodup := by
        rw [Roster.places_enlist]
        exact Multiset.nodup_cons.mpr ⟨hfresh,hstop.nodup⟩
      known := by rw [Roster.places_enlist]; exact hstop.known_cons hk
      freeq := h.freeq
      scheduler := h.scheduler }

/-- The records of the sleep list that pass a test. -/
lemma records_filter (h : s.Sim r ns) (test : SleepTcb → Bool) :
    (ns.filter fun n => test (s.node n)).map s.node = r.asleep.filter test := by
  rw [h.asleep, List.filter_map]
  rfl

/-- The pushes of `wake` give its queues. -/
lemma ready_wake (h : s.Sim r ns) (now : BitVec 32) : (r.wake now).ready = fun k =>
    (((s.ripe now ns).filter fun n => (s.node n).queue = k).map
      fun n => (s.node n).tcb).reverse ++ r.ready k := by
  funext k
  have hripe : (s.ripe now ns).map s.node = _ := h.records_filter (SleepTcb.due now)
  rw [r.ready_wake, ← hripe, List.filter_map, List.map_map]
  rfl

/-- A thread that is due is on no queue, and due once. -/
lemma ripe_nodup (h : s.Sim r ns) (now : BitVec 32) :
    ((((s.ripe now ns).map fun n => (s.node n).tcb : List ℕ) : Multiset ℕ) +
      gather r.ready).Nodup := by
  have hlist : ((s.ripe now ns).map fun n => (s.node n).tcb) =
      (r.asleep.filter (SleepTcb.due now)).map SleepTcb.tcb := by
    rw [← h.records_filter, List.map_map]
    rfl
  have hsub : (((s.ripe now ns).map fun n => (s.node n).tcb : List ℕ) : Multiset ℕ) ≤
      ((r.asleep.map SleepTcb.tcb : List ℕ) : Multiset ℕ) := by
    rw [hlist, Multiset.coe_le]
    exact (List.filter_sublist.map _).subperm
  refine Multiset.nodup_of_le ?_ h.nodup
  rw [Roster.places, add_comm (gather r.ready)]
  exact (add_le_add_left hsub _).trans (Multiset.le_add_right _ _)

theorem wake (h : s.Sim r ns) (now : BitVec 32) :
    ∃ u, s.wake now = some (u, (r.asleep.filter (SleepTcb.due now)).length) ∧
      u.Sim (r.wake now) (ns.filter fun n => !(s.node n).due now) ∧
        u.resurfTime = s.resurfTime := by
  obtain ⟨link,sleepTail,sleeping,hu,hlist⟩ := wake_unlinks h.sleepers now
  have hripe : (s.ripe now ns).map s.node = _ := h.records_filter (SleepTcb.due now)
  have hunripe : (s.unripe now ns).map s.node = _ := h.records_filter fun n => !n.due now
  have hframe := pushAll_frame s (s.ripe now ns)
  have hplaces := r.places_wake now
  refine ⟨_, by rw [hu, ← hripe, List.length_map], ?_, by rw [hframe]; rfl⟩
  exact
    { queues := by
        rw [h.ready_wake]
        exact pushAll_queues s _ h.queues (h.ripe_nodup now)
      sleepers := by
        rw [hframe]
        exact hlist
      asleep := by
        rw [hframe]
        exact hunripe.symm
      user := by
        rw [hframe, Roster.running_wake]
        exact h.user
      nodup := by rw [hplaces]; exact h.nodup
      known := by
        rw [hplaces, hframe]
        exact h.known
      freeq := by rw [hframe]; exact h.freeq
      scheduler := by rw [hframe]; exact h.scheduler }

/-- The draining loop comes to its end. -/
theorem drain {i : Fin 5} (hi : i ≠ 0) {ts : List ℕ} {fuel : ℕ} (h : s.Sim r ns)
    (hts : r.ready i = ts) (hfuel : ts.length ≤ fuel) :
    ∃ u, s.drain i fuel = some u ∧ u.Sim (r.drain i) ns := by
  induction ts generalizing s r fuel with
  | nil =>
    have hempty : (s.queues i).empty = true := (h.queues.each i).empty_iff.mpr hts
    refine ⟨s, by cases fuel <;> simp [Sched.drain, hempty], ?_⟩
    have hsame : r.drain i = r := by
      have hupd : Function.update r.ready i [] = r.ready := by
        rw [← hts, Function.update_eq_self]
      simp [Roster.drain, Roster.keep, hts, hupd]
    rwa [hsame]
  | cons t ts ih =>
    obtain ⟨fuel,rfl⟩ : ∃ k, fuel = k+1 := ⟨fuel-1, by simp at hfuel; omega⟩
    have hfull : (s.queues i).empty = false := by
      rw [Bool.eq_false_iff, ne_eq, (h.queues.each i).empty_iff, hts]
      exact List.cons_ne_nil t ts
    obtain ⟨hpop,hsim,ht,hk⟩ := h.pop hts
    have hnext : ((r.keep i ts).push 0 t).ready i = ts := by
      simp [Roster.keep, Roster.push, Function.update_of_ne hi]
    obtain ⟨u,hu,hsim'⟩ := ih (hsim.push 0 ht hk) hnext (by simpa using hfuel)
    refine ⟨u, by simp [Sched.drain, hfull, hpop, hu], ?_⟩
    have hsame : ((r.keep i ts).push 0 t).drain i = r.drain i := by
      rw [Roster.drain, hnext]
      simp only [Roster.drain, Roster.keep, Roster.push, hts, List.reverse_cons,
        Function.update_self, Function.update_of_ne hi.symm]
      congr 1
      funext j
      by_cases hj : j = i
      · simp [hj]
      · by_cases hj0 : j = 0
        · simp [hj0, Function.update_of_ne hi.symm]
        · simp [hj, hj0]
    rwa [hsame] at hsim'

lemma clock (h : s.Sim r ns) (now : BitVec 32) : Sim { s with resurfTime := now } r ns :=
  { h with }

theorem resurf (h : s.Sim r ns) (now : BitVec 32) :
    ∃ u, s.resurf now = some u ∧ u.Sim r.resurf ns := by
  have hrun : ∀ is : List (Fin 5), (∀ i ∈ is, i ≠ 0) → ∀ (s : Sched) (r : Roster), s.Sim r ns →
      ∃ u, is.foldlM (fun s i => Sched.drain i (s.queues i).cnt s) s = some u ∧
        u.Sim (is.foldl Roster.drain r) ns := by
    intro is his
    induction is with
    | nil => exact fun s r h => ⟨s,rfl,h⟩
    | cons i is ih =>
      intro s r h
      obtain ⟨u,hu,hsim⟩ := h.drain (his i (by simp)) rfl (h.queues.each i).cnt.ge
      obtain ⟨v,hv,hsim⟩ := ih (fun j hj => his j (by simp [hj])) u _ hsim
      exact ⟨v, by rw [List.foldlM_cons, hu]; exact hv, hsim⟩
  obtain ⟨u,hu,hsim⟩ := hrun [1,2,3,4] (by decide) s r h
  exact ⟨_, by rw [Sched.resurf, hu]; rfl, hsim.clock now⟩

/-- The cache of freed blocks is never filled, so a block is always new. -/
lemma thAlloc (h : s.Sim r ns) :
    s.thAlloc = (s.nalloced, { s with nalloced := s.nalloced+1 }) := by
  rw [Sched.thAlloc, h.freeq]
  rfl

lemma grow (h : s.Sim r ns) : Sim { s with nalloced := s.nalloced+1 } r ns :=
  { h with
    known := fun t ht => ⟨Nat.lt_succ_of_lt (h.known t ht).1, (h.known t ht).2⟩
    scheduler := fun t ht => Nat.lt_succ_of_lt (h.scheduler t ht) }

lemma fresh (h : s.Sim r ns) : s.nalloced ∉ r.places := fun hm =>
  absurd (h.known _ hm).1 (Nat.lt_irrefl _)

theorem fork (h : s.Sim r ns) : s.fork.Sim (r.append 0 s.nalloced) ns := by
  rw [Sched.fork, h.thAlloc]
  refine h.grow.append 0 h.fresh ⟨Nat.lt_succ_self _, fun hs => ?_⟩
  exact absurd (h.scheduler _ hs) (Nat.lt_irrefl _)

theorem threadStart (h : s.Sim r ns) (now : BitVec 32) (hr : r.running = none)
    (hs : s.schedulerThread = none) : (s.threadStart now).Sim r ns := by
  unfold Sched.threadStart
  split
  · exact h
  · rw [hs, h.thAlloc]
    exact
      { h.grow with
        user := by simp [Sched.user, hr]
        known := fun t ht => ⟨(h.grow.known t ht).1, fun he => by
          simp only [Option.some.injEq] at he
          exact h.fresh (he ▸ ht)⟩
        scheduler := fun t ht => by
          simp only [Option.some.injEq] at ht
          subst ht
          exact Nat.lt_succ_self _ }

end Sim
end Sched
end DistributedPis
