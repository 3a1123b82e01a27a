import DistributedPis.Threads.Conservation

/-! The loop of `threadSched`. It wakes sleepers before it looks at each queue, so a thread can
go to a queue that the scan has passed; unless something else is ready, it is then left
behind. -/
namespace DistributedPis
open Library

/-- Where `threadSched` stands: before its first test, before the visit of a queue, switched to
a user thread, behind the scan, before the condition of the blocking loop, or at
`clean_reboot`. -/
inductive Pc where
  | entry
  | scan (i : Fin 5)
  | running
  | tail
  | block
  | reboot
  deriving DecidableEq

/-- What the next step gets from outside: three readings of the clock, as far as it makes
them, or what the running thread does. -/
inductive Tick where
  | clock (now check stamp : BitVec 32)
  | event (e : SchedEvent)

namespace Sched

/-- The part of the visit before the queue is looked at. -/
def refill (now check stamp : BitVec 32) (s : Sched) : Option Sched :=
  (s.wake now).bind fun r =>
    if resurfDelay < check - r.1.resurfTime then r.1.resurf stamp else some r.1

/-- The records of the sleep list. -/
def walk (s : Sched) : ℕ → Option ℕ → List SleepTcb
  | _, none => []
  | 0, some _ => []
  | k+1, some n => s.node n :: s.walk k (s.link n)

def sleepers (s : Sched) : List SleepTcb := s.walk s.kmallocs (s.link 0)

end Sched

structure ThreadSched where
  pc : Pc
  threads : Threads

namespace ThreadSched

def start (n : ℕ) (now : BitVec 32) : ThreadSched := ⟨.entry, .boot n now⟩

/-- What follows queue `i` in the scan. -/
def nextPc (i : Fin 5) : Pc := if i = 4 then .tail else .scan (i+1)

def visit (i : Fin 5) (s : Threads) : ThreadSched :=
  if (s.sched.queues i).empty then ⟨nextPc i, { s with sched.curQueue := i }⟩
  else ⟨.running, { s with sched := s.sched.dispatch i }⟩

/-- A thread that stops running brings the scan back to the first queue. -/
def step (c : ThreadSched) : Tick → Option ThreadSched
  | .clock now check stamp =>
    let s := c.threads
    match c.pc with
    | .entry => some ⟨if (s.sched.queues 0).empty then .reboot else .scan 0, s⟩
    | .scan i => (s.sched.refill now check stamp).map fun u => visit i { s with sched := u }
    | .tail => some
        ⟨if s.sched.sleeping = 0 ∧ (s.sched.queues 0).empty then .reboot else .block, s⟩
    | .block => (s.sched.wake now).map fun r =>
        ⟨if r.2 = 0 ∧ (r.1.queues 0).empty then .block else .scan 0, { s with sched := r.1 }⟩
    | .running | .reboot => none
  | .event e =>
    match c.pc with
    | .running => (c.threads.step e).map fun s => match e with
      | .fork => ⟨.running,s⟩
      | _ => ⟨.scan 0,s⟩
    | _ => none

/-- A queue that the scan at `i` has passed and will not look at again. -/
def Passed (i k : Fin 5) : Prop := 0 < k ∧ k < i

instance (i k : Fin 5) : Decidable (Passed i k) := inferInstanceAs (Decidable (_ ∧ _))

/-- The visit does not leave all ready threads behind the scan: no sleeper goes to a queue that
was passed, or `resurf` fetches it, or another queue has a thread or gets one. -/
def timely (c : ThreadSched) : Tick → Bool
  | .clock now check _ => decide (∀ i, c.pc = .scan i →
      resurfDelay < check - c.threads.sched.resurfTime ∨
      (∀ n ∈ c.threads.sched.sleepers, n.due now → ¬Passed i n.queue) ∨
      (∃ k, ¬Passed i k ∧ (c.threads.sched.queues k).empty = false) ∨
      ∃ n ∈ c.threads.sched.sleepers, n.due now ∧ ¬Passed i n.queue)
  | .event _ => true

/-- No ready thread is in a place where nobody looks for it any more. -/
def InReach (r : Roster) : Pc → Prop
  | .entry => (∀ k, k ≠ 0 → r.ready k = []) ∧ r.asleep = []
  | .scan i => (∀ k, ¬Passed i k → r.ready k = []) → ∀ k, r.ready k = []
  | .tail | .block => r.ready 0 = [] → ∀ k, r.ready k = []
  | .running => True
  | .reboot => (∀ k, r.ready k = []) ∧ r.asleep = []

structure Good (c : ThreadSched) (r : Roster) (ns : List ℕ) : Prop where
  holds : c.threads.Holds r ns
  idle : r.running = none ↔ c.pc ≠ .running
  inReach : InReach r c.pc

/-- The part of it that does not depend on the clock. -/
structure Sound (c : ThreadSched) (r : Roster) (ns : List ℕ) : Prop where
  holds : c.threads.Holds r ns
  idle : r.running = none ↔ c.pc ≠ .running

lemma Good.sound {c : ThreadSched} {r : Roster} {ns : List ℕ} (h : Good c r ns) : Sound c r ns :=
  ⟨h.holds, h.idle⟩

end ThreadSched

namespace Sched.Sim
variable {s : Sched} {r : Roster} {ns : List ℕ}

lemma walk_path {p : Option ℕ} {k : ℕ} (hp : Path s.link p ns none) (hk : ns.length ≤ k) :
    s.walk k p = ns.map s.node := by
  induction ns generalizing p k with
  | nil => obtain rfl := hp; cases k <;> rfl
  | cons n ns ih =>
    obtain ⟨rfl,hp⟩ := hp
    obtain ⟨k,rfl⟩ : ∃ j, k = j+1 := ⟨k-1, by simp at hk; omega⟩
    rw [Sched.walk, ih hp (by simpa using hk), List.map_cons]

theorem sleepers_eq (h : s.Sim r ns) : s.sleepers = r.asleep := by
  rw [Sched.sleepers, walk_path h.sleepers.path.2 h.sleepers.few, h.asleep]

lemma empty_iff (h : s.Sim r ns) (k : Fin 5) : (s.queues k).empty = true ↔ r.ready k = [] :=
  (h.queues.each k).empty_iff

end Sched.Sim

namespace ThreadSched
variable {c c' : ThreadSched} {r : Roster} {ns : List ℕ} {i : Fin 5}

/-- A timely waking leaves nobody behind the scan. -/
lemma inReach_wake {now : BitVec 32} (h : InReach r (.scan i))
    (htimely : (∀ n ∈ r.asleep, n.due now = true → ¬Passed i n.queue) ∨
      (∃ k, ¬Passed i k ∧ r.ready k ≠ []) ∨
      ∃ n ∈ r.asleep, n.due now = true ∧ ¬Passed i n.queue) :
    InReach (r.wake now) (.scan i) := by
  intro hopen
  have hclear : ∀ k, ¬Passed i k →
      r.ready k = [] ∧ ∀ n ∈ r.asleep, n.due now = true → n.queue ≠ k :=
    fun k hk => (r.ready_wake_eq_nil now k).mp (hopen k hk)
  obtain hnone | ⟨k,hk,hfull⟩ | ⟨n,hn,hdue,hq⟩ := htimely
  · have hall := h fun k hk => (hclear k hk).1
    intro k
    refine (r.ready_wake_eq_nil now k).mpr ⟨hall k, fun n hn hdue hq => ?_⟩
    exact (hclear n.queue (hnone n hn hdue)).2 n hn hdue rfl
  · exact absurd (hclear k hk).1 hfull
  · exact absurd rfl ((hclear n.queue hq).2 n hn hdue)

lemma nextPc_ne_running (i : Fin 5) : nextPc i ≠ .running := by
  unfold nextPc
  split <;> simp

lemma not_passed_zero : ¬Passed i 0 := fun h => absurd h.1 (by decide)

/-- A scan that starts at the highest queue has all of them ahead. -/
lemma inReach_start : InReach r (.scan 0) :=
  fun hopen k => hopen k fun hk => absurd (lt_trans hk.1 hk.2) (by decide)

lemma inReach_resurf : InReach r.resurf (.scan i) := by
  intro hopen k
  by_cases hk : k = 0
  · exact hopen k (hk ▸ not_passed_zero)
  · exact r.ready_resurf hk

lemma not_passed_last : ∀ k, ¬Passed 4 k → k = 0 ∨ k = 4 := by decide

lemma not_passed_next : ∀ i k : Fin 5, i ≠ 4 → ¬Passed i k → k ≠ i → ¬Passed (i+1) k := by decide

/-- Passing an empty queue. -/
lemma inReach_next (h : InReach r (.scan i)) (hi : r.ready i = []) : InReach r (nextPc i) := by
  unfold nextPc
  split
  · rename_i hlast
    subst hlast
    intro hzero
    refine h fun k hk => ?_
    obtain rfl | rfl := not_passed_last k hk
    · exact hzero
    · exact hi
  · rename_i hlast
    intro hopen
    refine h fun k hk => ?_
    by_cases hki : k = i
    · exact hki ▸ hi
    · exact hopen k (not_passed_next i k hlast hk hki)

/-- The scheduler goes on without a change. -/
lemma Sound.stay {pc pc' : Pc} {s : Threads} (h : Sound ⟨pc, s⟩ r ns) (hpc : pc ≠ .running)
    (hpc' : pc' ≠ .running) : Sound ⟨pc', s⟩ r ns :=
  ⟨h.holds, iff_of_true (h.idle.mpr hpc) hpc'⟩

/-- What the visit does before the queue is looked at. -/
lemma refill_sound {s : Threads} (h : Sound ⟨.scan i, s⟩ r ns) (now check stamp : BitVec 32) :
    ∃ u ns', s.sched.refill now check stamp = some u ∧
      Sound ⟨.scan i, { s with sched := u }⟩
        (if resurfDelay < check - s.sched.resurfTime then (r.wake now).resurf else r.wake now)
        ns' := by
  obtain ⟨u,ns',hu,hwake,htime⟩ := h.holds.wake now
  have hidle : (r.wake now).running = none ↔ Pc.scan i ≠ .running := by
    rw [r.running_wake]; exact h.idle
  rw [Sched.refill, hu, Option.bind_some]
  dsimp only
  rw [htime]
  split
  · obtain ⟨v,hv,hres⟩ := hwake.resurf stamp
    exact ⟨v, _, hv, hres, hidle⟩
  · exact ⟨u, _, rfl, hwake, hidle⟩

/-- Before the queue is looked at, a timely visit leaves nobody behind. -/
lemma refill_good (h : Good ⟨.scan i, c.threads⟩ r ns) {now check stamp : BitVec 32}
    (htimely : timely ⟨.scan i, c.threads⟩ (.clock now check stamp) = true) :
    ∃ u r' ns', c.threads.sched.refill now check stamp = some u ∧
      Good ⟨.scan i, { c.threads with sched := u }⟩ r' ns' := by
  obtain ⟨u,ns',hu,hholds,hidle⟩ := refill_sound h.sound now check stamp
  refine ⟨u, _, ns', hu, hholds, hidle, ?_⟩
  split
  · exact inReach_resurf
  · rename_i hresurf
    refine inReach_wake h.inReach ?_
    have hcond := of_decide_eq_true htimely i rfl
    rw [h.holds.sim.sleepers_eq] at hcond
    obtain hres | hnone | ⟨k,hk,hfull⟩ | hdue := hcond
    · exact absurd hres hresurf
    · exact .inl hnone
    · refine .inr (.inl ⟨k, hk, fun hempty => ?_⟩)
      rw [(h.holds.sim.empty_iff k).mpr hempty] at hfull
      exact absurd hfull (by decide)
    · exact .inr (.inr hdue)

/-- The visit passes an empty queue or switches to its first thread. -/
lemma visit_sound {s : Threads} (h : Sound ⟨.scan i, s⟩ r ns) :
    ∃ r', Sound (visit i s) r' ns ∧
      ((visit i s).pc = nextPc i ∧ r' = r ∧ r.ready i = [] ∨
        (visit i s).pc = .running ∧ ∃ t ts, r.ready i = t::ts ∧
          (visit i s).threads.sched.curThread = some t ∧ r' = (r.keep i ts).run (some t)) := by
  have hrun : r.running = none := h.idle.mpr (by simp)
  unfold visit
  split
  · rename_i hempty
    have hi := (h.holds.sim.empty_iff i).mp hempty
    exact ⟨r, ⟨⟨{ h.holds.sim with }, h.holds.live⟩, iff_of_true hrun (nextPc_ne_running i)⟩,
      .inl ⟨rfl, rfl, hi⟩⟩
  · rename_i hfull
    have hi : r.ready i ≠ [] := fun hi => hfull ((h.holds.sim.empty_iff i).mpr hi)
    obtain ⟨t,ts,hts⟩ := List.exists_cons_of_ne_nil hi
    exact ⟨_, ⟨h.holds.dispatch hrun hts, by simp [Roster.run]⟩,
      .inr ⟨rfl, t, ts, hts, (h.holds.sim.pop hts).1, rfl⟩⟩

lemma visit_good {s : Threads} (h : Good ⟨.scan i, s⟩ r ns) :
    ∃ r' ns', Good (visit i s) r' ns' := by
  obtain ⟨r',hsound,hpc⟩ := visit_sound h.sound
  refine ⟨r', ns, hsound.holds, hsound.idle, ?_⟩
  obtain ⟨hpc,rfl,hi⟩ | ⟨hpc,-⟩ := hpc
  · rw [hpc]
    exact inReach_next h.inReach hi
  · rw [hpc]
    trivial

lemma block_sound {s : Threads} (h : Sound ⟨.block, s⟩ r ns) (now : BitVec 32) :
    ∃ u ns', s.sched.wake now = some (u, (r.asleep.filter (SleepTcb.due now)).length) ∧
      ∀ pc, pc ≠ .running → Sound ⟨pc, { s with sched := u }⟩ (r.wake now) ns' := by
  obtain ⟨u,ns',hu,hwake,_⟩ := h.holds.wake now
  have hrun : (r.wake now).running = none := by rw [r.running_wake]; exact h.idle.mpr (by simp)
  exact ⟨u, ns', hu, fun pc hpc => ⟨hwake, iff_of_true hrun hpc⟩⟩

/-- The blocking loop only goes on while nobody is ready. -/
lemma block_good {s : Threads} (h : Good ⟨.block, s⟩ r ns) (now : BitVec 32) :
    ∃ u r' ns' awoke, s.sched.wake now = some (u,awoke) ∧
      Good ⟨if awoke = 0 ∧ (u.queues 0).empty then .block else .scan 0,
        { s with sched := u }⟩ r' ns' := by
  obtain ⟨u,ns',hu,hsound⟩ := block_sound h.sound now
  refine ⟨u, r.wake now, ns', _, hu, ?_⟩
  split
  · rename_i hcond
    obtain ⟨hholds,hidle⟩ := hsound .block (by decide)
    refine ⟨hholds, hidle, fun hzero => ?_⟩
    have hnone : ∀ n ∈ r.asleep, n.due now = true → False := by
      simpa [List.filter_eq_nil_iff] using hcond.1
    have hall := h.inReach ((r.ready_wake_eq_nil now 0).mp hzero).1
    exact fun k => (r.ready_wake_eq_nil now k).mpr
      ⟨hall k, fun n hn hdue => absurd (hnone n hn hdue) id⟩
  · obtain ⟨hholds,hidle⟩ := hsound (.scan 0) (by decide)
    exact ⟨hholds, hidle, inReach_start⟩

/-- Whatever a running thread does, it runs on or the scheduler is back. -/
lemma event_sound {s : Threads} {e : SchedEvent} (h : Sound ⟨.running, s⟩ r ns)
    (ht : (⟨.running, s⟩ : ThreadSched).step (.event e) = some c') :
    ∃ t u ns', s.step e = some t ∧ s.sched.user = some u ∧
      Sound c' (r.after s.sched u e) ns' ∧ (c'.pc = .running ∨ c'.pc = .scan 0) := by
  obtain ⟨t,hs,hc⟩ := Option.map_eq_some_iff.mp ht
  have hrun : s.sched.user ≠ none := by
    rw [h.holds.sim.user, ne_eq, h.idle]
    simp
  obtain ⟨u,hu⟩ := Option.ne_none_iff_exists'.mp hrun
  obtain ⟨ns',hnext⟩ := h.holds.after hu hs
  refine ⟨t, u, ns', hs, hu, ?_⟩
  subst hc
  unfold Threads.step Threads.allows at hs
  cases e with
  | fork =>
    rw [h.holds.sim.user] at hu
    exact ⟨⟨hnext, by simp [Roster.after, Roster.append, hu]⟩, .inl rfl⟩
  | wake _ | resurf _ | dispatch _ => simp [hu] at hs
  | saveContext | saveContextYield | sleep _ _ | exit =>
    exact ⟨⟨hnext, by simp [Roster.after, Roster.append, Roster.enlist, Roster.run]⟩, .inr rfl⟩

/-- Every step keeps the threads in their places. -/
theorem sound_step {t : Tick} (h : Sound c r ns) (ht : c.step t = some c') :
    ∃ r' ns', Sound c' r' ns' := by
  obtain ⟨pc,s⟩ := c
  cases t with
  | clock now check stamp =>
    cases pc with
    | entry | tail =>
      obtain rfl := Option.some.inj ht
      exact ⟨r, ns, h.stay (by simp) (by dsimp only; split <;> simp)⟩
    | scan i =>
      obtain ⟨u,ns',hu,hsound⟩ := refill_sound h now check stamp
      obtain ⟨r',hvisit,_⟩ := visit_sound hsound
      simp only [step, hu, Option.map_some, Option.some.injEq] at ht
      exact ⟨r', ns', ht ▸ hvisit⟩
    | running => simp [step] at ht
    | block =>
      obtain ⟨u,ns',hu,hsound⟩ := block_sound h now
      simp only [step, hu, Option.map_some, Option.some.injEq] at ht
      exact ⟨_, ns', ht ▸ hsound _ (by split <;> simp)⟩
    | reboot => simp [step] at ht
  | event e =>
    cases pc with
    | running =>
      obtain ⟨_,u,ns',_,_,hnext,_⟩ := event_sound h ht
      exact ⟨r.after s.sched u e, ns', hnext⟩
    | _ => simp [step] at ht

lemma entry_good {s : Threads} (h : Good ⟨.entry, s⟩ r ns) :
    Good ⟨if (s.sched.queues 0).empty then .reboot else .scan 0, s⟩ r ns := by
  have hrun : r.running = none := h.idle.mpr (by simp)
  split
  · rename_i hempty
    refine ⟨h.holds, by simp [hrun], fun k => ?_, h.inReach.2⟩
    by_cases hk : k = 0
    · exact hk ▸ (h.holds.sim.empty_iff 0).mp hempty
    · exact h.inReach.1 k hk
  · exact ⟨h.holds, by simp [hrun], inReach_start⟩

lemma tail_good {s : Threads} (h : Good ⟨.tail, s⟩ r ns) :
    Good ⟨if s.sched.sleeping = 0 ∧ (s.sched.queues 0).empty then .reboot else .block, s⟩ r ns := by
  have hrun : r.running = none := h.idle.mpr (by simp)
  split
  · rename_i hcond
    have hready := h.inReach ((h.holds.sim.empty_iff 0).mp hcond.2)
    have hsleeping := h.holds.sim.sleepers.sleeping
    rw [hcond.1] at hsleeping
    have hns : ns = [] := List.length_eq_zero_iff.mp (by omega)
    have hasleep : r.asleep = [] := by rw [h.holds.sim.asleep, hns, List.map_nil]
    exact ⟨h.holds, by simp [hrun], hready, hasleep⟩
  · exact ⟨h.holds, by simp [hrun], h.inReach⟩

lemma event_good {s : Threads} {e : SchedEvent} (h : Good ⟨.running, s⟩ r ns)
    (ht : (⟨.running, s⟩ : ThreadSched).step (.event e) = some c') : ∃ r' ns', Good c' r' ns' := by
  obtain ⟨_,u,ns',_,_,hnext,hpc⟩ := event_sound h.sound ht
  refine ⟨_, ns', hnext.holds, hnext.idle, ?_⟩
  obtain hpc | hpc := hpc <;> rw [hpc]
  · trivial
  · exact inReach_start

/-- Every timely step keeps the ready threads in reach. -/
theorem good_step {t : Tick} (h : Good c r ns) (htimely : c.timely t = true)
    (ht : c.step t = some c') : ∃ r' ns', Good c' r' ns' := by
  obtain ⟨pc,s⟩ := c
  cases t with
  | clock now check stamp =>
    cases pc with
    | entry =>
      obtain rfl := Option.some.inj ht
      exact ⟨r, ns, entry_good h⟩
    | scan i =>
      obtain ⟨u,r',ns',hu,hgood⟩ := refill_good (c := ⟨.scan i, s⟩) h htimely
      simp only [step, hu, Option.map_some, Option.some.injEq] at ht
      exact ht ▸ visit_good hgood
    | running => simp [step] at ht
    | tail =>
      obtain rfl := Option.some.inj ht
      exact ⟨r, ns, tail_good h⟩
    | block =>
      obtain ⟨u,r',ns',awoke,hu,hgood⟩ := block_good h now
      simp only [step, hu, Option.map_some, Option.some.injEq] at ht
      exact ⟨r', ns', ht ▸ hgood⟩
    | reboot => simp [step] at ht
  | event e =>
    cases pc with
    | running => exact event_good h ht
    | _ => simp [step] at ht

lemma start_good (n : ℕ) (now : BitVec 32) : ∃ r ns, Good (start n now) r ns := by
  exact ⟨_, _, Threads.boot_holds n now, by simp [start], fun k hk => by simp [hk], rfl⟩

lemma block_empty {t : Tick} (hpc : c.pc = .block) (ht : c.step t = some c')
    (hpc' : c'.pc = .block) : (c'.threads.sched.queues 0).empty = true := by
  obtain ⟨pc,s⟩ := c
  obtain rfl : pc = .block := hpc
  cases t with
  | clock now check stamp =>
    obtain ⟨⟨u,awoke⟩,_,rfl⟩ := Option.map_eq_some_iff.mp ht
    dsimp only at hpc' ⊢
    split at hpc'
    · rename_i hcond
      exact hcond.2
    · cases hpc'
  | event e => cases ht

/-- In every run of timely steps the scheduler reboots only when no thread is left, and it
never goes round its blocking loop while a thread is ready. -/
theorem threadSched_waits {n : ℕ} {now : BitVec 32} {ticks : List Tick} {c : ThreadSched}
    (htimely : Meets step (fun c t => c.timely t = true) (start n now) ticks)
    (hrun : ticks.foldlM step (start n now) = some c) :
    (c.pc = .reboot → c.threads.live = [] ∧ c.threads.sched.link 0 = none ∧
      ∀ k, (c.threads.sched.queues k).empty = true) ∧
    ∀ t c', c.pc = .block → c.step t = some c' → c'.pc = .block →
      ∀ k, (c'.threads.sched.queues k).empty = true := by
  obtain ⟨r₀,ns₀,hstart⟩ := start_good n now
  obtain ⟨r,ns,h⟩ := foldlM_invariant_meets (P := fun c => ∃ r ns, Good c r ns)
    (fun c t c' ⟨r,ns,hc⟩ htimely hstep => good_step hc htimely hstep) ⟨r₀,ns₀,hstart⟩ htimely hrun
  refine ⟨fun hpc => ?_, fun t c' hpc hstep hpc' k => ?_⟩
  · have hreach := h.inReach
    rw [hpc] at hreach
    have hidle : r.running = none := h.idle.mpr (by simp [hpc])
    refine ⟨?_, ?_, fun k => (h.holds.sim.empty_iff k).mpr (hreach.1 k)⟩
    · have hplaces := h.holds.live
      simp only [Roster.places, gather, hreach.1, hreach.2, hidle] at hplaces
      simpa using hplaces.symm
    · have hnodes := h.holds.sim.asleep
      rw [hreach.2, eq_comm, List.map_eq_nil_iff] at hnodes
      rw [h.holds.sim.sleepers.next_head, hnodes]
      rfl
  · obtain ⟨r',ns',h'⟩ := good_step h (by cases t <;> simp [timely, hpc]) hstep
    have hreach := h'.inReach
    rw [hpc'] at hreach
    exact (h'.holds.sim.empty_iff k).mpr
      (hreach ((h'.holds.sim.empty_iff 0).mp (block_empty hpc hstep hpc')) k)

/-- One thread sleeps for a while and exits. -/
def nap : List Tick :=
  [.clock 0 0 0, .clock 0 0 0, .event (.sleep 10 0), .clock 1 0 0, .clock 2 0 0, .clock 3 0 0,
    .clock 4 0 0, .clock 5 0 0, .clock 5 0 0, .clock 9 0 0, .clock 10 0 0, .clock 11 0 0,
    .event .exit, .clock 12 0 0, .clock 12 0 0, .clock 12 0 0, .clock 12 0 0, .clock 12 0 0,
    .clock 12 0 0]

theorem threadSched_waits_nap : ∃ c, nap.foldlM step (start 1 0) = some c ∧ c.pc = .reboot ∧
    (c.pc = .reboot → c.threads.live = [] ∧ c.threads.sched.link 0 = none ∧
      ∀ k, (c.threads.sched.queues k).empty = true) ∧
    ∀ t c', c.pc = .block → c.step t = some c' → c'.pc = .block →
      ∀ k, (c'.threads.sched.queues k).empty = true := by
  have hpc : (nap.foldlM step (start 1 0)).map pc = some .reboot := by decide +kernel
  have htimely : Meets step (fun c t => c.timely t = true) (start 1 0) nap := by decide +kernel
  obtain ⟨c,hc,hpc⟩ := Option.map_eq_some_iff.mp hpc
  exact ⟨c, hc, hpc, threadSched_waits htimely hc⟩

/-- A thread falls asleep on the second queue and its time comes while the third one is
looked at: the scheduler reboots with the thread ready. -/
def overtaken : List Tick :=
  [.clock 0 0 0, .clock 0 0 0, .event .saveContext, .clock 1 0 0, .clock 2 0 0,
    .event (.sleep 10 2), .clock 3 0 0, .clock 4 0 0, .clock 12 0 0, .clock 13 0 0,
    .clock 14 0 0, .clock 15 0 0]

theorem ready_thread_lost : ∃ c, overtaken.foldlM step (start 1 0) = some c ∧ c.pc = .reboot ∧
    c.threads.live = [0] ∧ (c.threads.sched.queues 1).head = some 0 := by
  have hall : (overtaken.foldlM step (start 1 0)).map (fun c =>
      (c.pc, c.threads.live, (c.threads.sched.queues 1).head)) =
        some (.reboot, [0], some 0) := by decide +kernel
  obtain ⟨c,hc,hall⟩ := Option.map_eq_some_iff.mp hall
  simp only [Prod.mk.injEq] at hall
  exact ⟨c, hc, hall⟩

end ThreadSched
end DistributedPis
