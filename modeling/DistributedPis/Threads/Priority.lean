import DistributedPis.Threads.Scan

/-! The priority of the queues. Every thread that stops brings the scan back to the first queue,
but `wake` runs again before each queue is looked at, and nobody goes back for a thread that it
puts on a queue the scan has found empty. -/
namespace DistributedPis
open Library

namespace Sched

/-- Queue `k` has a thread once the sleepers have been woken. -/
def filled (s : Sched) (now : BitVec 32) (k : Fin 5) : Bool :=
  !(s.queues k).empty || s.sleepers.any fun n => n.due now && n.queue == k

lemma Sim.filled_eq_false {s : Sched} {r : Roster} {ns : List ℕ} (h : s.Sim r ns)
    (now : BitVec 32) (k : Fin 5) : s.filled now k = false ↔ (r.wake now).ready k = [] := by
  rw [r.ready_wake_eq_nil, filled, h.sleepers_eq, Bool.or_eq_false_iff, List.any_eq_false,
    Bool.not_eq_false', h.empty_iff]
  simp

end Sched

namespace ThreadSched

/-- At the visit of a queue that has a thread, the queues before it have none; or `resurf` brings
all threads to the first one. -/
def orderly (c : ThreadSched) : Tick → Bool
  | .clock now check _ => decide (∀ i, c.pc = .scan i →
      resurfDelay < check - c.threads.sched.resurfTime ∨
      c.threads.sched.filled now i = false ∨ ∀ j < i, c.threads.sched.filled now j = false)
  | .event _ => true

/-- If the step takes a thread from queue `k`, the queues before it are empty. -/
def TakesFirst (c : ThreadSched) (t : Tick) : Prop :=
  ∀ k c', c.pc = .scan k → c.step t = some c' → c'.pc = .running →
    ∀ j < k, (c'.threads.sched.queues j).empty = true

variable {c : ThreadSched} {s : Threads} {r : Roster} {ns : List ℕ} {i : Fin 5}

/-- A visit after the sleepers have been woken takes from the queue it looks at. -/
lemma visit_takes (h : Sound ⟨.scan i, s⟩ r ns) :
    ((visit i s).pc = .running → ∀ j < i, ((visit i s).threads.sched.queues j).empty = true) ↔
      r.ready i = [] ∨ ∀ j < i, r.ready j = [] := by
  unfold visit
  split
  · rename_i hempty
    refine iff_of_true (fun hpc => absurd hpc (nextPc_ne_running i)) (.inl ?_)
    exact (h.holds.sim.empty_iff i).mp hempty
  · rename_i hfull
    have hi : r.ready i ≠ [] := fun hi => hfull ((h.holds.sim.empty_iff i).mpr hi)
    rw [or_iff_right hi]
    have hother : ∀ j < i, ((s.sched.dispatch i).queues j).empty = true ↔ r.ready j = [] := by
      intro j hj
      rw [Sched.dispatch, Sched.pop]
      dsimp only
      rw [Function.update_of_ne hj.ne]
      exact h.holds.sim.empty_iff j
    exact ⟨fun h j hj => (hother j hj).mp (h rfl j hj), fun h _ j hj => (hother j hj).mpr (h j hj)⟩

/-- One step from any state that a run can reach. -/
theorem takesFirst_iff (h : Sound c r ns) (t : Tick) : c.TakesFirst t ↔ c.orderly t = true := by
  obtain ⟨pc,s⟩ := c
  cases t with
  | event e =>
    refine iff_of_true (fun k c' hpc hstep => ?_) rfl
    obtain rfl : pc = .scan k := hpc
    cases hstep
  | clock now check stamp =>
    rw [orderly, decide_eq_true_iff]
    cases pc with
    | scan i =>
      obtain ⟨u,ns',hu,hsound⟩ := refill_sound h now check stamp
      have htakes : TakesFirst ⟨.scan i, s⟩ (.clock now check stamp) ↔
          ((visit i { s with sched := u }).pc = .running →
            ∀ j < i, ((visit i { s with sched := u }).threads.sched.queues j).empty = true) := by
        simp [TakesFirst, step, hu]
      rw [htakes, visit_takes hsound]
      simp only [Pc.scan.injEq, forall_eq', h.holds.sim.filled_eq_false]
      split
      · rename_i hres
        simp only [hres, true_or, iff_true]
        -- after resurf only the first queue has threads
        by_cases hi : i = 0
        · exact .inr fun j hj => absurd (hi ▸ hj) (Fin.not_lt_zero j)
        · exact .inl (Roster.ready_resurf _ hi)
      · rename_i hres
        rw [or_iff_right hres]
    | _ => exact iff_of_true (fun k c' hpc => by cases hpc) (fun k hpc => by cases hpc)

lemma start_sound (n : ℕ) (now : BitVec 32) : ∃ r ns, Sound (start n now) r ns := by
  obtain ⟨r,ns,h⟩ := start_good n now
  exact ⟨r, ns, h.sound⟩

/-- In a run from the start, threads are always taken from the first queue that has one exactly if
every step is orderly. -/
theorem priority_iff (n : ℕ) (now : BitVec 32) (ticks : List Tick) :
    (∀ ys t zs, ticks = ys ++ t::zs → ∀ c, ys.foldlM step (start n now) = some c →
      c.TakesFirst t) ↔
      Meets step (fun c t => c.orderly t = true) (start n now) ticks := by
  have hstep : ∀ c t c', (∃ r ns, Sound c r ns) → c.step t = some c' → ∃ r ns, Sound c' r ns :=
    fun _ _ _ ⟨_,_,hc⟩ hstep => sound_step hc hstep
  exact splits_iff_meets hstep (fun c t ⟨_,_,hc⟩ => takesFirst_iff hc t) (start_sound n now)

/-- The first thread is preempted, the second one falls asleep on the first queue. Its time comes
while the second queue is looked at. -/
def passedOver : List Tick :=
  [.clock 0 0 0, .clock 0 0 0, .event .saveContext, .clock 1 0 0, .event (.sleep 10 1),
    .clock 2 0 0, .clock 11 0 0]

theorem second_queue_first : ¬∀ ys t zs, passedOver = ys ++ t::zs →
    ∀ c, ys.foldlM step (start 2 0) = some c → c.TakesFirst t := by
  intro h
  have hrun : (passedOver.dropLast.foldlM step (start 2 0)).map pc = some (.scan 1) := by
    decide +kernel
  obtain ⟨c,hc,hpc⟩ := Option.map_eq_some_iff.mp hrun
  have hlast : ((passedOver.dropLast.foldlM step (start 2 0)).bind
      (step · (.clock 11 0 0))).map (fun c => (c.pc, (c.threads.sched.queues 0).empty)) =
        some (.running, false) := by decide +kernel
  rw [hc, Option.bind_some] at hlast
  obtain ⟨c',hc',hfull⟩ := Option.map_eq_some_iff.mp hlast
  obtain ⟨hrunning,hfull⟩ := Prod.mk.inj hfull
  have hempty := h passedOver.dropLast (.clock 11 0 0) [] rfl c hc 1 c' hpc hc' hrunning 0
    (by decide)
  exact Bool.false_ne_true (hfull.symm.trans hempty)

end ThreadSched
end DistributedPis
