import DistributedPis.Threads.Refines
import DistributedPis.Library.Run

/-! Thread conservation: in every run each thread that was forked and has not exited is in one
place, and the queues and the sleep list stay in order. -/
namespace DistributedPis
open Library

/-- What the running thread `t` does to the roster. -/
def Roster.after (r : Roster) (s : Sched) (t : ℕ) : SchedEvent → Roster
  | .fork => r.append 0 s.nalloced
  | .saveContext => (r.run none).append (Sched.demote s.curQueue) t
  | .saveContextYield => (r.run none).append 0 t
  | .sleep delay now => (r.run none).enlist ⟨t, now, delay, s.curQueue⟩
  | .exit => r.run none
  | .wake _ | .resurf _ | .dispatch _ => r

namespace Threads

/-- The roster holds the live threads, once each. -/
structure Holds (s : Threads) (r : Roster) (ns : List ℕ) : Prop where
  sim : s.sched.Sim r ns
  live : r.places = s.live

namespace Holds
variable {s : Threads} {r : Roster} {ns : List ℕ} {t : ℕ}

theorem fork (h : s.Holds r ns) : s.fork.Holds (r.append 0 s.sched.nalloced) ns where
  sim := h.sim.fork
  live := by rw [Roster.places_append, h.live, Threads.fork, h.sim.thAlloc, Multiset.cons_coe]

/-- Any state that stands for a roster of the same threads. -/
lemma move (h : s.Holds r ns) {u : Sched} {r' : Roster} {ns' : List ℕ} (hsim : u.Sim r' ns')
    (hplaces : r'.places = r.places) : Holds { s with sched := u } r' ns' :=
  ⟨hsim, hplaces.trans h.live⟩

theorem wake (h : s.Holds r ns) (now : BitVec 32) :
    ∃ u ns', s.sched.wake now = some (u, (r.asleep.filter (SleepTcb.due now)).length) ∧
      Holds { s with sched := u } (r.wake now) ns' ∧ u.resurfTime = s.sched.resurfTime := by
  obtain ⟨u,hu,hsim,htime⟩ := h.sim.wake now
  exact ⟨u, _, hu, h.move hsim (r.places_wake now), htime⟩

theorem resurf (h : s.Holds r ns) (now : BitVec 32) :
    ∃ u, s.sched.resurf now = some u ∧ Holds { s with sched := u } r.resurf ns := by
  obtain ⟨u,hu,hsim⟩ := h.sim.resurf now
  exact ⟨u, hu, h.move hsim r.places_resurf⟩

theorem dispatch (h : s.Holds r ns) (hr : r.running = none) {i : Fin 5} {ts : List ℕ}
    (hi : r.ready i = t::ts) :
    Holds { s with sched := s.sched.dispatch i } ((r.keep i ts).run (some t)) ns :=
  h.move (h.sim.dispatch hr hi) (by
    rw [Roster.places_start (r.keep i ts) t hr, ← r.places_keep i t hi])

/-- The running thread goes to the end of a queue. -/
theorem requeue (h : s.Holds r ns) (ht : s.sched.user = some t) (i : Fin 5) :
    Holds { s with sched := (s.sched.append i t).reenter } ((r.run none).append i t) ns := by
  obtain ⟨hfresh,hk⟩ := h.sim.stopped ht
  refine h.move (h.sim.reenter.append i hfresh hk) ?_
  rw [Roster.places_append, ← r.places_run t (h.sim.user ▸ ht)]

theorem sleep (h : s.Holds r ns) (ht : s.sched.user = some t) (delay now : BitVec 32) :
    Holds { s with sched := s.sched.sleep delay now t }
      ((r.run none).enlist ⟨t, now, delay, s.sched.curQueue⟩) (ns ++ [s.sched.kmallocs+1]) :=
  h.move (h.sim.sleep ht delay now) (by
    rw [Roster.places_enlist, ← r.places_run t (h.sim.user ▸ ht)])

theorem exit (h : s.Holds r ns) (ht : s.sched.user = some t) :
    Holds ⟨s.sched.reenter, s.live.erase t⟩ (r.run none) ns where
  sim := h.sim.reenter
  live := by
    have hplaces := h.live
    rw [r.places_run t (h.sim.user ▸ ht)] at hplaces
    rw [← Multiset.coe_erase, ← hplaces, Multiset.erase_cons_head]

/-- While a thread runs, only what it does itself happens. -/
theorem after (h : s.Holds r ns) (ht : s.sched.user = some t) {e : SchedEvent} {u : Threads}
    (hu : s.step e = some u) : ∃ ns', u.Holds (r.after s.sched t e) ns' := by
  unfold Threads.step at hu
  split at hu
  · rename_i he
    cases e with
    | fork => cases hu; exact ⟨_, h.fork⟩
    | wake _ | resurf _ | dispatch _ => simp [allows, ht] at he
    | saveContext =>
      simp only [ht, Option.map_some, Option.some.injEq] at hu
      exact ⟨_, hu ▸ h.requeue ht (Sched.demote s.sched.curQueue)⟩
    | saveContextYield =>
      simp only [ht, Option.map_some, Option.some.injEq] at hu
      exact ⟨_, hu ▸ h.requeue ht 0⟩
    | sleep delay now =>
      simp only [ht, Option.map_some, Option.some.injEq] at hu
      exact ⟨_, hu ▸ h.sleep ht delay now⟩
    | exit =>
      simp only [ht, Option.map_some, Option.some.injEq] at hu
      exact ⟨_, hu ▸ h.exit ht⟩
  · cases hu

/-- Every allowed event comes to its end and moves threads from one place to another. -/
theorem step (h : s.Holds r ns) {e : SchedEvent} (he : s.allows e = true) :
    ∃ u r' ns', s.step e = some u ∧ u.Holds r' ns' := by
  unfold Threads.step
  rw [if_pos he]
  have huser : s.sched.user.isSome = true → ∃ t, s.sched.user = some t := Option.isSome_iff_exists.mp
  cases e with
  | fork => exact ⟨_, _, _, rfl, h.fork⟩
  | wake now =>
    obtain ⟨u,ns',hu,hsim,_⟩ := h.wake now
    exact ⟨_, _, _, by simp [hu], hsim⟩
  | resurf now =>
    obtain ⟨u,hu,hsim⟩ := h.resurf now
    exact ⟨_, _, _, by simp [hu], hsim⟩
  | dispatch i =>
    simp only [allows, Bool.and_eq_true, Option.isNone_iff_eq_none, Bool.not_eq_true'] at he
    have hi : r.ready i ≠ [] := by
      rw [ne_eq, ← (h.sim.queues.each i).empty_iff, he.2]
      exact Bool.false_ne_true
    obtain ⟨t,ts,hts⟩ := List.exists_cons_of_ne_nil hi
    exact ⟨_, _, _, rfl, h.dispatch (h.sim.user ▸ he.1) hts⟩
  | saveContext =>
    obtain ⟨t,ht⟩ := huser he
    exact ⟨_, _, _, by simp [ht, Sched.saveContext], h.requeue ht (Sched.demote s.sched.curQueue)⟩
  | saveContextYield =>
    obtain ⟨t,ht⟩ := huser he
    exact ⟨_, _, _, by simp [ht, Sched.saveContextYield], h.requeue ht 0⟩
  | sleep delay now =>
    obtain ⟨t,ht⟩ := huser he
    exact ⟨_, _, _, by simp [ht], h.sleep ht delay now⟩
  | exit =>
    obtain ⟨t,ht⟩ := huser he
    exact ⟨_, _, _, by simp [ht], h.exit ht⟩

end Holds

/-- Before the start there are only forked threads, all in the first queue. -/
lemma forks_holds (n : ℕ) :
    (forks n).Holds ⟨Function.update (fun _ => []) 0 (List.range n), [], none⟩ [] ∧
      (forks n).sched.nalloced = n ∧ (forks n).sched.schedulerThread = none := by
  induction n with
  | zero =>
    have hplaces : Roster.places ⟨Function.update (fun _ => []) 0 [], [], none⟩ = 0 := by
      simp [Roster.places, gather]
    refine ⟨⟨?_, by simp [Roster.places, gather, forks]⟩, rfl, rfl⟩
    exact
      { queues := ⟨fun i => by simpa [forks, Sched.zero] using IsQueue.zero, by simp [gather]⟩
        sleepers := .zero
        asleep := rfl
        user := rfl
        nodup := by
          rw [List.range_zero, hplaces]
          exact Multiset.nodup_zero
        known := by
          rw [List.range_zero, hplaces]
          simp
        freeq := rfl
        scheduler := by simp [forks, Sched.zero] }
  | succ n ih =>
    obtain ⟨h,hcount,hs⟩ := ih
    have hfork := h.fork
    rw [hcount] at hfork
    refine ⟨by simpa [Roster.append, forks, List.range_succ] using hfork, ?_, ?_⟩
    · rw [forks, Threads.fork, Sched.fork, h.sim.thAlloc]
      simp [Sched.append, hcount]
    · rw [forks, Threads.fork, Sched.fork, h.sim.thAlloc]
      exact hs

theorem boot_holds (n : ℕ) (now : BitVec 32) :
    (boot n now).Holds ⟨Function.update (fun _ => []) 0 (List.range n), [], none⟩ [] := by
  obtain ⟨h,-,hs⟩ := forks_holds n
  exact h.move (h.sim.threadStart now rfl hs) rfl

/-- In every run, every live thread is in exactly one place exactly once, no other thread is
anywhere, the queues and the sleep list are well formed, and no allowed operation hangs. -/
theorem threads_conserved {n : ℕ} {now : BitVec 32} {es : List SchedEvent} {s : Threads}
    (h : es.foldlM step (boot n now) = some s) :
    (∃ (qs : Fin 5 → List ℕ) (ns : List ℕ),
      (∀ i, IsQueue s.sched.next (s.sched.queues i) (qs i)) ∧
      IsSleepList s.sched.link s.sched.sleepTail s.sched.sleeping s.sched.kmallocs ns ∧
      ∀ t, (Roster.places ⟨qs, ns.map s.sched.node, s.sched.user⟩).count t =
        if t ∈ s.live then 1 else 0) ∧
    ∀ e, s.allows e = true → (s.step e).isSome = true := by
  have hstep : ∀ s e t, (∃ r ns, Holds s r ns) → s.step e = some t → ∃ r ns, Holds t r ns := by
    rintro s e t ⟨r,ns,hs⟩ ht
    have he : s.allows e = true := by
      by_contra hc
      simp [step, hc] at ht
    obtain ⟨u,r',ns',hu,hnext⟩ := hs.step he
    rw [ht, Option.some.injEq] at hu
    exact ⟨r', ns', hu ▸ hnext⟩
  obtain ⟨r,ns,hs⟩ := foldlM_invariant (P := fun s => ∃ r ns, Holds s r ns) hstep
    ⟨_,_,boot_holds n now⟩ h
  refine ⟨⟨r.ready, ns, hs.sim.queues.each, hs.sim.sleepers, fun t => ?_⟩, fun e he => ?_⟩
  · rw [← hs.sim.asleep, hs.sim.user]
    have hnd := hs.sim.nodup
    rw [show Roster.places ⟨r.ready, r.asleep, r.running⟩ = s.live from hs.live]
    rw [hs.live] at hnd
    exact Multiset.count_eq_of_nodup hnd
  · obtain ⟨u,_,_,hu,_⟩ := hs.step he
    rw [hu]
    rfl

theorem threads_conserved_nap : ∃ s,
    [.dispatch 0, .sleep 5 0, .dispatch 0, .saveContext, .wake 7, .resurf 8, .dispatch 0,
      .exit].foldlM step (boot 2 0) = some s ∧ s.live = [0] ∧
    (∃ (qs : Fin 5 → List ℕ) (ns : List ℕ),
      (∀ i, IsQueue s.sched.next (s.sched.queues i) (qs i)) ∧
      IsSleepList s.sched.link s.sched.sleepTail s.sched.sleeping s.sched.kmallocs ns ∧
      ∀ t, (Roster.places ⟨qs, ns.map s.sched.node, s.sched.user⟩).count t =
        if t ∈ s.live then 1 else 0) ∧
    ∀ e, s.allows e = true → (s.step e).isSome = true := by
  have hlive : ([.dispatch 0, .sleep 5 0, .dispatch 0, .saveContext, .wake 7, .resurf 8,
      .dispatch 0, .exit].foldlM step (boot 2 0)).map live = some [0] := by decide +kernel
  obtain ⟨s,hs,hl⟩ := Option.map_eq_some_iff.mp hlive
  exact ⟨s, hs, hl, threads_conserved hs⟩

end Threads
end DistributedPis
