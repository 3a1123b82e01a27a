import DistributedPis.Threads.Scan

/-! The order within a queue. Threads that are forked, preempted or yield go to the end of their
queue, but `wake` and `resurf` put theirs in front, and a batch of them the other way around. -/
namespace DistributedPis
open Library

/-- For each queue the threads on it, in the order in which they entered it. -/
abbrev Line := Fin 5 → List ℕ

namespace Line

def enter (l : Line) (k : Fin 5) (t : ℕ) : Line := Function.update l k (l k ++ [t])

def enterAll (l : Line) (ns : List SleepTcb) : Line := ns.foldl (fun l n => l.enter n.queue n.tcb) l

def leave (l : Line) (k : Fin 5) (t : ℕ) : Line := Function.update l k ((l k).erase t)

/-- The threads `ts` of the other queues enter the first one. -/
def fetch (l : Line) (ts : List ℕ) : Line := fun k => if k = 0 then l 0 ++ ts else []

end Line

namespace Sched

/-- The threads of queue `k`, first one first. -/
def contents (s : Sched) (k : Fin 5) : List ℕ := follow s.next (s.queues k).cnt (s.queues k).head

/-- The threads below the first queue, in the order in which `resurf` finds them. -/
def lower (s : Sched) : List ℕ := ([1,2,3,4] : List (Fin 5)).flatMap s.contents

def ripeSleepers (s : Sched) (now : BitVec 32) : List SleepTcb :=
  s.sleepers.filter (SleepTcb.due now)

/-- Who enters which queue before one is looked at. -/
def refillLine (now check : BitVec 32) (s : Sched) (l : Line) : Line :=
  match s.wake now with
  | none => l
  | some (u,_) =>
    if resurfDelay < check - u.resurfTime then (l.enterAll (s.ripeSleepers now)).fetch u.lower
    else l.enterAll (s.ripeSleepers now)

/-- How many threads queue `k` gets from `wake`. -/
def woken (s : Sched) (now : BitVec 32) (k : Fin 5) : ℕ :=
  ((s.ripeSleepers now).filter fun n => n.queue = k).length

/-- How many it then has. -/
def filledTo (s : Sched) (now : BitVec 32) (k : Fin 5) : ℕ := (s.queues k).cnt + s.woken now k

/-- `wake` does not put a thread on a queue with another one. -/
def wakesAlone (s : Sched) (now : BitVec 32) : Prop :=
  ∀ k, s.woken now k = 0 ∨ s.filledTo now k = 1

instance (s : Sched) (now : BitVec 32) : Decidable (s.wakesAlone now) :=
  inferInstanceAs (Decidable (∀ _, _ ∨ _))

/-- `resurf` after that `wake` fetches no thread, or one to an empty queue. -/
def fetchesAlone (s : Sched) (now : BitVec 32) : Prop :=
  s.filledTo now 1 + s.filledTo now 2 + s.filledTo now 3 + s.filledTo now 4 = 0 ∨
    s.filledTo now 0 + s.filledTo now 1 + s.filledTo now 2 + s.filledTo now 3 + s.filledTo now 4 = 1

instance (s : Sched) (now : BitVec 32) : Decidable (s.fetchesAlone now) :=
  inferInstanceAs (Decidable (_ ∨ _))

end Sched

/-- Who enters which queue by what the running thread does. -/
def Threads.enters (s : Threads) (e : SchedEvent) (l : Line) : Line :=
  match e, s.sched.user with
  | .fork, _ => l.enter 0 s.sched.thAlloc.1
  | .saveContext, some t => l.enter (Sched.demote s.sched.curQueue) t
  | .saveContextYield, some t => l.enter 0 t
  | _, _ => l

namespace ThreadSched

/-- The lines when all that enter in this step have done so. -/
def enters (c : ThreadSched) (t : Tick) (l : Line) : Line :=
  match c.pc, t with
  | .scan _, .clock now check _ => c.threads.sched.refillLine now check l
  | .block, .clock now _ _ => l.enterAll (c.threads.sched.ripeSleepers now)
  | .running, .event e => c.threads.enters e l
  | _, _ => l

/-- The thread that the scan has switched to leaves its line. -/
def leaves (c c' : ThreadSched) (l : Line) : Line :=
  match c.pc, c'.pc, c'.threads.sched.curThread with
  | .scan k, .running, some t => l.leave k t
  | _, _, _ => l

/-- A step with the lines at the queues. -/
def lineStep (x : ThreadSched × Line) (t : Tick) : Option (ThreadSched × Line) :=
  (x.1.step t).map fun c' => (c', leaves x.1 c' (x.1.enters t x.2))

/-- If the step takes a thread from queue `k`, it is the one that has been there longest. -/
def FirstOut (c : ThreadSched) (l : Line) (t : Tick) : Prop :=
  ∀ k c', c.pc = .scan k → c.step t = some c' → c'.pc = .running →
    c'.threads.sched.curThread = (c.enters t l k).head?

/-- Threads that `wake` or `resurf` move have a queue to themselves. -/
def alone (c : ThreadSched) (t : Tick) : Bool :=
  match c.pc, t with
  | .scan _, .clock now check _ => decide (c.threads.sched.wakesAlone now ∧
    (resurfDelay < check - c.threads.sched.resurfTime → c.threads.sched.fetchesAlone now))
  | .block, .clock now _ _ => decide (c.threads.sched.wakesAlone now)
  | _, _ => true

/-- The threads that are forked before the start are in the first line. -/
def startLine (n : ℕ) : Line := Function.update (fun _ => []) 0 (List.range n)

end ThreadSched

/-- Threads can only be put in front, in reverse, if they are alone. -/
lemma append_eq_reverse_append {xs ys : List ℕ} (h : ys.length = 0 ∨ xs.length+ys.length = 1) :
    xs ++ ys = ys.reverse ++ xs := by
  rcases h with h | h
  · rw [List.length_eq_zero_iff] at h
    simp [h]
  · rcases xs with _ | ⟨x,xs⟩
    · obtain ⟨y,rfl⟩ := List.length_eq_one_iff.mp (by simpa using h)
      rfl
    · have hys : ys.length = 0 := by
        rw [List.length_cons] at h
        omega
      rw [List.length_eq_zero_iff] at hys
      simp [hys]

section Rosters
variable {s u : Sched} {r : Roster} {ns ms : List ℕ} {now : BitVec 32}

lemma Line.enterAll_apply (l : Line) (ns : List SleepTcb) (k : Fin 5) :
    l.enterAll ns k = l k ++ (ns.filter fun n => n.queue = k).map SleepTcb.tcb := by
  induction ns generalizing l with
  | nil => simp [enterAll]
  | cons n ns ih =>
    have hstep : l.enterAll (n::ns) = (l.enter n.queue n.tcb).enterAll ns := rfl
    rw [hstep, ih]
    by_cases hk : n.queue = k
    · subst hk
      simp [enter]
    · simp [enter, hk, Function.update_of_ne (Ne.symm hk)]

lemma Roster.ready_resurf_zero (r : Roster) :
    r.resurf.ready 0 = (([1,2,3,4] : List (Fin 5)).flatMap r.ready).reverse ++ r.ready 0 := by
  simp [resurf, drain, keep, Function.update]

namespace Sched.Sim

lemma contents_eq (h : s.Sim r ns) (k : Fin 5) : s.contents k = r.ready k :=
  path_follow (h.queues.each k).path (h.queues.each k).cnt.ge

lemma lower_eq (h : s.Sim r ns) : s.lower = ([1,2,3,4] : List (Fin 5)).flatMap r.ready := by
  have hall : s.contents = r.ready := funext h.contents_eq
  rw [Sched.lower, hall]

lemma ripeSleepers_eq (h : s.Sim r ns) (now : BitVec 32) :
    s.ripeSleepers now = r.asleep.filter (SleepTcb.due now) := by
  rw [Sched.ripeSleepers, h.sleepers_eq]

lemma filledTo_eq (h : s.Sim r ns) (now : BitVec 32) (k : Fin 5) :
    s.filledTo now k = ((r.wake now).ready k).length := by
  rw [Sched.filledTo, Sched.woken, h.ripeSleepers_eq, (h.queues.each k).cnt, r.ready_wake]
  simp only [List.length_append, List.length_reverse, List.length_map]
  omega

/-- A thread woken for an empty queue, by itself, is the first and the last one there. -/
lemma enterAll_eq (h : s.Sim r ns) (halone : s.wakesAlone now) :
    Line.enterAll r.ready (s.ripeSleepers now) = (r.wake now).ready := by
  funext k
  have hlen := h.filledTo_eq now k
  have hwoken : s.woken now k =
      ((r.asleep.filter (SleepTcb.due now)).filter fun n => n.queue = k).length := by
    rw [Sched.woken, h.ripeSleepers_eq]
  rw [Line.enterAll_apply, h.ripeSleepers_eq]
  rw [r.ready_wake, List.length_append, List.length_reverse] at hlen
  rw [r.ready_wake]
  refine append_eq_reverse_append ((halone k).imp (fun hnone => ?_) fun hone => ?_)
  · rwa [List.length_map, ← hwoken]
  · rw [Nat.add_comm, ← hlen]
    exact hone

/-- The same of a thread that is fetched. -/
lemma fetch_eq (hr : u.Sim (r.wake now) ms) (h : s.Sim r ns) (halone : s.fetchesAlone now) :
    Line.fetch (r.wake now).ready u.lower = (r.wake now).resurf.ready := by
  funext k
  rw [Line.fetch, hr.lower_eq]
  split
  · rename_i hk
    subst hk
    rw [Roster.ready_resurf_zero]
    refine append_eq_reverse_append ?_
    unfold fetchesAlone at halone
    simp only [h.filledTo_eq] at halone
    simp only [List.flatMap_cons, List.flatMap_nil, List.length_append, List.length_nil]
    omega
  · rename_i hk
    exact (Roster.ready_resurf _ hk).symm

end Sched.Sim
end Rosters

namespace ThreadSched
variable {c c' : ThreadSched} {s : Threads} {r : Roster} {ns : List ℕ} {i : Fin 5} {l : Line}

/-- The queues hold the lines. -/
def InLine (c : ThreadSched) (l : Line) : Prop := ∃ r ns, Sound c r ns ∧ l = r.ready

lemma refillLine_eq (h : Sound ⟨.scan i, s⟩ r ns) {now check : BitVec 32}
    (hwake : s.sched.wakesAlone now)
    (hfetch : resurfDelay < check - s.sched.resurfTime → s.sched.fetchesAlone now) :
    s.sched.refillLine now check r.ready =
      (if resurfDelay < check - s.sched.resurfTime then (r.wake now).resurf
        else r.wake now).ready := by
  obtain ⟨u,ns',hu,hsim,htime⟩ := h.holds.wake now
  have henter := h.holds.sim.enterAll_eq hwake
  rw [Sched.refillLine, hu]
  dsimp only
  rw [htime, henter]
  split
  · rename_i hdue
    exact hsim.sim.fetch_eq h.holds.sim (hfetch hdue)
  · rfl

/-- Only a step to a running thread takes one from its line. -/
lemma leaves_eq (l : Line) (hpc : c'.pc ≠ .running) : leaves c c' l = l := by
  unfold leaves
  split
  · rename_i hrun _
    exact absurd hrun hpc
  · rfl

/-- A visit takes the first thread of its line. -/
lemma visit_inLine (h : Sound ⟨.scan i, s⟩ r ns) (hc : c.pc = .scan i) :
    InLine (visit i s) (leaves c (visit i s) r.ready) ∧
      ((visit i s).pc = .running → (visit i s).threads.sched.curThread = (r.ready i).head?) := by
  obtain ⟨r',hsound,⟨hpc,rfl,-⟩ | ⟨hpc,t,ts,hts,hcur,rfl⟩⟩ := visit_sound h
  · have hne : (visit i s).pc ≠ .running := hpc ▸ nextPc_ne_running i
    exact ⟨⟨r', ns, hsound, leaves_eq _ hne⟩, fun hrun => absurd hrun hne⟩
  · refine ⟨⟨_, ns, hsound, ?_⟩, fun _ => by rw [hcur, hts]; rfl⟩
    unfold leaves
    rw [hc, hpc, hcur]
    simp only [Line.leave, hts, List.erase_cons_head]
    rfl

/-- The running thread, or one that it forks, goes to the end of its line. -/
lemma event_enters {e : SchedEvent} {u : ℕ} {t : Threads} (h : Sound ⟨.running, s⟩ r ns)
    (hu : s.sched.user = some u) (ht : s.step e = some t) :
    s.enters e r.ready = (r.after s.sched u e).ready := by
  unfold Threads.step at ht
  unfold Threads.enters
  rw [hu, h.holds.sim.thAlloc]
  cases e with
  | wake _ | resurf _ | dispatch _ => simp [Threads.allows, hu] at ht
  | _ => rfl

/-- The step that looks at queue `i`. -/
lemma scan_inLine {now check stamp : BitVec 32} (h : Sound ⟨.scan i, s⟩ r ns)
    (halone : alone ⟨.scan i, s⟩ (.clock now check stamp) = true)
    (ht : step ⟨.scan i, s⟩ (.clock now check stamp) = some c') :
    InLine c' (leaves ⟨.scan i, s⟩ c' (enters ⟨.scan i, s⟩ (.clock now check stamp) r.ready)) ∧
      (c'.pc = .running → c'.threads.sched.curThread =
        (enters ⟨.scan i, s⟩ (.clock now check stamp) r.ready i).head?) := by
  obtain ⟨hwake,hfetch⟩ := of_decide_eq_true halone
  obtain ⟨u,ns',hu,hnext⟩ := refill_sound h now check stamp
  simp only [step, hu, Option.map_some, Option.some.injEq] at ht
  subst ht
  have henters : enters ⟨.scan i, s⟩ (.clock now check stamp) r.ready = _ :=
    refillLine_eq h hwake hfetch
  rw [henters]
  exact visit_inLine hnext rfl

/-- A round of the blocking loop. -/
lemma block_inLine {now check stamp : BitVec 32} (h : Sound ⟨.block, s⟩ r ns)
    (halone : alone ⟨.block, s⟩ (.clock now check stamp) = true)
    (ht : step ⟨.block, s⟩ (.clock now check stamp) = some c') :
    InLine c' (leaves ⟨.block, s⟩ c' (enters ⟨.block, s⟩ (.clock now check stamp) r.ready)) := by
  obtain ⟨u,ns',hu,hnext⟩ := block_sound h now
  simp only [step, hu, Option.map_some, Option.some.injEq] at ht
  subst ht
  have henters : enters ⟨.block, s⟩ (.clock now check stamp) r.ready = _ :=
    h.holds.sim.enterAll_eq (of_decide_eq_true halone)
  rw [henters]
  split
  · exact ⟨_, ns', hnext .block (by decide), leaves_eq _ (by simp)⟩
  · exact ⟨_, ns', hnext (.scan 0) (by decide), leaves_eq _ (by simp)⟩

/-- What the running thread does. -/
lemma event_inLine {e : SchedEvent} (h : Sound ⟨.running, s⟩ r ns)
    (ht : step ⟨.running, s⟩ (.event e) = some c') :
    InLine c' (leaves ⟨.running, s⟩ c' (enters ⟨.running, s⟩ (.event e) r.ready)) := by
  obtain ⟨t,u,ns',hs,hu,hnext,-⟩ := event_sound h ht
  have henters : enters ⟨.running, s⟩ (.event e) r.ready = _ := event_enters h hu hs
  rw [henters]
  exact ⟨_, ns', hnext, rfl⟩

/-- One step, in which no thread is put in front of another. -/
theorem inLine_step {t : Tick} (h : InLine c l) (halone : c.alone t = true)
    (ht : c.step t = some c') : InLine c' (leaves c c' (c.enters t l)) ∧
      ∀ k, c.pc = .scan k → c'.pc = .running →
        c'.threads.sched.curThread = (c.enters t l k).head? := by
  obtain ⟨r,ns,hsound,rfl⟩ := h
  obtain ⟨pc,s⟩ := c
  cases t with
  | clock now check stamp =>
    cases pc with
    | scan i =>
      obtain ⟨hline,hfirst⟩ := scan_inLine hsound halone ht
      refine ⟨hline, fun k hk hrun => ?_⟩
      obtain rfl : i = k := by simpa using hk
      exact hfirst hrun
    | block => exact ⟨block_inLine hsound halone ht, fun k hk => by cases hk⟩
    | entry | tail =>
      obtain rfl := Option.some.inj ht
      refine ⟨?_, fun k hk => by cases hk⟩
      dsimp only
      split <;> exact ⟨r, ns, hsound.stay (by decide) (by decide), leaves_eq _ (by simp)⟩
    | _ => cases ht
  | event e =>
    cases pc with
    | running => exact ⟨event_inLine hsound ht, fun k hk => by cases hk⟩
    | _ => cases ht

lemma lineStep_fst (x : ThreadSched × Line) (t : Tick) :
    (lineStep x t).map Prod.fst = x.1.step t := by
  rw [lineStep, Option.map_map]
  exact Option.map_id'

lemma start_inLine (n : ℕ) (now : BitVec 32) : InLine (start n now) (startLine n) :=
  ⟨_, _, ⟨Threads.boot_holds n now, by simp [start]⟩, rfl⟩

/-- In every run in which `wake` and `resurf` put no thread in front of another one, threads are
taken from each queue in the order in which they entered it. -/
theorem fifo {n : ℕ} {now : BitVec 32} {ticks : List Tick}
    (halone : Meets step (fun c t => c.alone t = true) (start n now) ticks) :
    ∀ ys t zs, ticks = ys ++ t::zs → ∀ c l,
      ys.foldlM lineStep (start n now, startLine n) = some (c,l) → c.FirstOut l t := by
  have hline : Meets lineStep (fun x t => x.1.alone t = true) (start n now, startLine n) ticks :=
    (meets_map (C := fun c t => c.alone t = true) Prod.fst lineStep_fst).mpr halone
  have hall := hline.invariant (P := fun x => InLine x.1 x.2) (fun x t y hx ht hy => by
    obtain ⟨c',hc',rfl⟩ := Option.map_eq_some_iff.mp hy
    exact (inLine_step hx ht hc').1) (start_inLine n now)
  intro ys t zs hticks c l hrun k c' hk hstep hc'
  obtain ⟨hin,ht⟩ := meets_iff_splits.mp hall ys t zs hticks (c,l) hrun
  exact (inLine_step hin ht hstep).2 k hk hc'

/-- A thread forks another one and is preempted, the second one yields, the forked one sleeps. The
first one is fetched by `resurf` and the last one is woken. -/
def mixed : List Tick :=
  [.clock 0 0 0, .clock 0 0 0, .event .fork, .event .saveContext, .clock 1 0 0,
    .event .saveContextYield, .clock 2 0 0, .event (.sleep 10 2), .clock 3 0 0, .event .exit,
    .clock 4 1000001 1000001, .event .exit, .clock 12 1000001 0]

theorem fifo_mixed : (mixed.foldlM lineStep (start 2 0, startLine 2)).isSome = true ∧
    ∀ ys t zs, mixed = ys ++ t::zs → ∀ c l,
      ys.foldlM lineStep (start 2 0, startLine 2) = some (c,l) → c.FirstOut l t :=
  ⟨by decide +kernel, fifo (by decide +kernel)⟩

/-- Two threads fall asleep on the first queue and are woken by one call. -/
def together : List Tick :=
  [.clock 0 0 0, .clock 0 0 0, .event (.sleep 10 0), .clock 1 0 0, .event (.sleep 10 1),
    .clock 11 0 0]

/-- The second one of them comes out first. -/
theorem woken_reversed : ¬∀ ys t zs, together = ys ++ t::zs → ∀ c l,
    ys.foldlM lineStep (start 2 0, startLine 2) = some (c,l) → c.FirstOut l t := by
  intro h
  have hrun : (together.dropLast.foldlM lineStep (start 2 0, startLine 2)).map
      (fun x => (x.1.pc, x.1.enters (.clock 11 0 0) x.2 0)) = some (.scan 0, [0,1]) := by
    decide +kernel
  obtain ⟨⟨c,l⟩,hc,hbefore⟩ := Option.map_eq_some_iff.mp hrun
  obtain ⟨hpc,hline⟩ := Prod.mk.inj hbefore
  have hlast : ((together.dropLast.foldlM lineStep (start 2 0, startLine 2)).bind
      (fun x => x.1.step (.clock 11 0 0))).map (fun c => (c.pc, c.threads.sched.curThread)) =
        some (.running, some 1) := by decide +kernel
  rw [hc, Option.bind_some] at hlast
  obtain ⟨c',hc',hafter⟩ := Option.map_eq_some_iff.mp hlast
  obtain ⟨hrunning,hcur⟩ := Prod.mk.inj hafter
  have hfirst := h together.dropLast (.clock 11 0 0) [] rfl c l hc 0 c' hpc hc' hrunning
  rw [hline, hcur] at hfirst
  cases hfirst

end ThreadSched
end DistributedPis
