import DistributedPis.Library.Coroutine
import DistributedPis.Libpi.Queues
import DistributedPis.Library.Words

/-! The cooperative thread package of `libpi/src/rpi-thread.c`, at the level of its pointers: two
queues of thread blocks that are used again, and the blocks whose `saved_sp` a switch stores and
loads. What a thread has on its stack is one value of a type `σ`, and one of a type `μ` for the
main program. Thread blocks are numbered in the order in which they are allocated. -/
namespace DistributedPis
open Library

/-- The two queues of the package. -/
inductive CoopQueue where
  | runq
  | freeq
  deriving DecidableEq

instance : Fintype CoopQueue := ⟨{.runq, .freeq}, fun q => by cases q <;> decide⟩

/-- What a stack holds. -/
inductive CoopStack (σ μ : Type) where
  | thread (c : σ)
  | main (m : μ)

/-- What `rpi_fork` returns: the block, with its id. -/
abbrev CoopThread := ℕ × Word

/-- The globals, the fields of the thread blocks, and the stack that is in use. -/
structure Coop (σ μ : Type) where
  next : ℕ → Option ℕ
  queues : CoopQueue → Queue ℕ
  curThread : Option ℕ
  schedulerThread : Option ℕ
  tid : Word
  nalloced : ℕ
  tids : ℕ → Word
  savedSp : ℕ → Option (CoopStack σ μ)
  stack : CoopStack σ μ

namespace Coop
variable {σ μ : Type}

/-- The globals as they are linked, when the main program begins. -/
def boot (m : μ) : Coop σ μ :=
  ⟨fun _ => none, fun _ => .zero, none, none, 1, 0, fun _ => 0, fun _ => none, .main m⟩

def qEmpty (q : CoopQueue) (s : Coop σ μ) : Bool := (s.queues q).empty

def qAppend (q : CoopQueue) (t : ℕ) (s : Coop σ μ) : Coop σ μ :=
  { s with
    next := ((s.queues q).append s.next t).1
    queues := Function.update s.queues q ((s.queues q).append s.next t).2 }

def qPush (q : CoopQueue) (t : ℕ) (s : Coop σ μ) : Coop σ μ :=
  { s with
    next := ((s.queues q).push s.next t).1
    queues := Function.update s.queues q ((s.queues q).push s.next t).2 }

def qPop (q : CoopQueue) (s : Coop σ μ) : Option ℕ × Coop σ μ :=
  (((s.queues q).pop s.next).1,
    { s with queues := Function.update s.queues q ((s.queues q).pop s.next).2 })

/-- The first part of `th_alloc`: a block from the free queue, else a new one. -/
def freeBlock (s : Coop σ μ) : ℕ × Coop σ μ :=
  match (s.qPop .freeq).1 with
  | some t => (t, (s.qPop .freeq).2)
  | none => (s.nalloced, { s with nalloced := s.nalloced+1 })

def thAlloc (s : Coop σ μ) : ℕ × Coop σ μ :=
  let (t, s) := s.freeBlock
  (t, { s with tids := Function.update s.tids t s.tid, tid := s.tid+1 })

/-- `rpi_fork`; the new stack is set up to run `code`. -/
def rpiFork (code : σ) (s : Coop σ μ) : CoopThread × Coop σ μ :=
  let (t, s) := s.thAlloc
  let s := { s with savedSp := Function.update s.savedSp t (some (.thread code)) }
  ((t, s.tids t), s.qAppend .runq t)

/-- `rpi_cswitch`: the stack `k` is left behind in block `old`. The other stack has been looked up
before that, as an argument. -/
def rpiCswitch (old new : ℕ) (k : CoopStack σ μ) (s : Coop σ μ) : Option (Coop σ μ) :=
  (s.savedSp new).map fun stack =>
    { s with savedSp := Function.update s.savedSp old (some k), stack := stack }

/-- `rpi_exit`; `k` is the stack of the call. -/
def rpiExit (k : CoopStack σ μ) (s : Coop σ μ) : Option (Coop σ μ) :=
  s.curThread.bind fun old =>
    let s := s.qPush .freeq old
    if s.qEmpty .runq then
      s.schedulerThread.bind fun new =>
        rpiCswitch old new k { s with curThread := s.schedulerThread }
    else
      let (cur, s) := s.qPop .runq
      cur.bind fun new => rpiCswitch old new k { s with curThread := cur }

def rpiYield (k : CoopStack σ μ) (s : Coop σ μ) : Option (Coop σ μ) :=
  if s.qEmpty .runq then some { s with stack := k }
  else
    s.curThread.bind fun old =>
      let (new, s) := (s.qAppend .runq old).qPop .runq
      new.bind fun new => rpiCswitch old new k { s with curThread := new }

def rpiThreadStart (k : CoopStack σ μ) (s : Coop σ μ) : Option (Coop σ μ) :=
  if s.qEmpty .runq then some { s with stack := k }
  else
    let (d, s) := match s.schedulerThread with
      | some d => (d, s)
      | none => (s.thAlloc.1, { s.thAlloc.2 with schedulerThread := some s.thAlloc.1 })
    let (cur, s) := s.qPop .runq
    cur.bind fun new => rpiCswitch d new k { s with curThread := cur }

/-- What the code in use does next. Only the main program calls `rpi_thread_start`, and it calls
neither `rpi_yield` nor `rpi_exit`. -/
def step (p : Coroutines CoopThread σ μ) (s : Coop σ μ) : Option (Coop σ μ) :=
  match s.stack with
  | .thread c =>
    match p.thread c with
    | .work k => some { s with stack := .thread k }
    | .fork d k => some { (s.rpiFork d).2 with stack := .thread (k (s.rpiFork d).1) }
    | .yield k => s.rpiYield (.thread k)
    | .exit k => s.rpiExit (.thread k)
  | .main m =>
    match p.main m with
    | .work k => some { s with stack := .main k }
    | .fork d k => some { (s.rpiFork d).2 with stack := .main (k (s.rpiFork d).1) }
    | .start k => s.rpiThreadStart (.main k)
    | .stop => none

/-- Some steps; there is no result when the main program stops before. -/
def run (p : Coroutines CoopThread σ μ) : ℕ → Coop σ μ → Option (Coop σ μ)
  | 0, s => some s
  | n+1, s => (s.step p).bind (run p n)

/-- The next thread in the queue gets its turn. -/
def turn (p : Coroutines CoopThread σ μ) (s : Coop σ μ) : ℕ :=
  match s.stack with
  | .thread c =>
    match p.thread c with
    | .yield _ | .exit _ => 1
    | .work _ | .fork _ _ => 0
  | .main m =>
    match p.main m with
    | .start _ => 1
    | .work _ | .fork _ _ | .stop => 0

/-- How often that happens in some steps. -/
def turns (p : Coroutines CoopThread σ μ) : ℕ → Coop σ μ → ℕ
  | 0, _ => 0
  | n+1, s => s.turn p + ((s.step p).map (turns p n)).getD 0

/-- The blocks on the two queues. -/
def lines (us : List (CoopThread × σ)) (fs : List ℕ) : CoopQueue → List ℕ
  | .runq => us.map fun u => u.1.1
  | .freeq => fs

/-- The run queue stands for `us`, the free queue for `fs`, and there are no other blocks than these
and `held`. -/
structure Pool (s : Coop σ μ) (us : List (CoopThread × σ)) (fs : List ℕ) (held : Multiset ℕ) :
    Prop where
  queues : AreQueues s.next s.queues (lines us fs)
  ready : ∀ u ∈ us, s.tids u.1.1 = u.1.2 ∧ s.savedSp u.1.1 = some (.thread u.2)
  blocks : gather (lines us fs) + held = Multiset.range s.nalloced

section Lines
variable (us : List (CoopThread × σ)) (u : CoopThread × σ) (fs : List ℕ)

theorem lines_concat : Function.update (lines us fs) .runq (lines us fs .runq ++ [u.1.1]) =
    lines (us ++ [u]) fs := by
  funext q
  cases q with
  | runq =>
    rw [Function.update_self, lines, lines, List.map_append]
    rfl
  | freeq => rfl

theorem lines_cons (t : ℕ) :
    Function.update (lines us fs) .freeq (t :: lines us fs .freeq) = lines us (t::fs) := by
  funext q
  cases q <;> rfl

theorem lines_tail : Function.update (lines (u::us) fs) .runq (us.map fun u => u.1.1) =
    lines us fs := by
  funext q
  cases q <;> rfl

theorem lines_free (t : ℕ) : Function.update (lines us (t::fs)) .freeq fs = lines us fs := by
  funext q
  cases q <;> rfl

end Lines

namespace Pool
variable {s s' : Coop σ μ} {us : List (CoopThread × σ)} {fs : List ℕ} {held : Multiset ℕ} {t : ℕ}

/-- Who runs does not matter. -/
theorem congr (h : s.Pool us fs held) (hnext : s'.next = s.next) (hqueues : s'.queues = s.queues)
    (htids : s'.tids = s.tids) (hsaved : s'.savedSp = s.savedSp)
    (hcount : s'.nalloced = s.nalloced) : s'.Pool us fs held where
  queues := hnext ▸ hqueues ▸ h.queues
  ready := htids ▸ hsaved ▸ h.ready
  blocks := hcount ▸ h.blocks

theorem not_mem (h : s.Pool us fs (t ::ₘ held)) : t ∉ gather (lines us fs) := by
  have hnd : (gather (lines us fs) + t ::ₘ held).Nodup := h.blocks ▸ Multiset.nodup_range _
  exact fun ht => Multiset.disjoint_left.mp (Multiset.nodup_add.mp hnd).2.2 ht
    (Multiset.mem_cons_self _ _)

theorem ne_block (h : s.Pool us fs (t ::ₘ held)) : ∀ u ∈ us, u.1.1 ≠ t := by
  rintro u hu rfl
  exact h.not_mem (mem_gather.mpr ⟨.runq, List.mem_map_of_mem (f := fun u => u.1.1) hu⟩)

theorem trans_held {held' : Multiset ℕ} (h : s.Pool us fs held) (hheld : held' = held) :
    s.Pool us fs held' :=
  hheld ▸ h

/-- A block that is on no queue is free to use. -/
theorem save (h : s.Pool us fs (t ::ₘ held)) (k : Option (CoopStack σ μ)) :
    Pool { s with savedSp := Function.update s.savedSp t k } us fs (t ::ₘ held) where
  queues := h.queues
  ready u hu := by
    dsimp only
    rw [Function.update_of_ne (h.ne_block u hu)]
    exact h.ready u hu
  blocks := h.blocks

theorem append (h : s.Pool us fs (t ::ₘ held)) {i : Word} {c : σ} (hi : s.tids t = i)
    (hc : s.savedSp t = some (.thread c)) :
    (s.qAppend .runq t).Pool (us ++ [((t,i),c)]) fs held where
  queues := by
    rw [← lines_concat]
    exact h.queues.append .runq h.not_mem
  ready u hu := by
    rcases List.mem_append.mp hu with hu | hu
    · exact h.ready u hu
    · obtain rfl := List.mem_singleton.mp hu
      exact ⟨hi, hc⟩
  blocks := by
    have hb := h.blocks
    rwa [Multiset.add_cons, ← Multiset.cons_add, ← gather_concat _ .runq,
      lines_concat us ((t,i),c)] at hb

theorem push (h : s.Pool us fs (t ::ₘ held)) : (s.qPush .freeq t).Pool us (t::fs) held where
  queues := by
    rw [← lines_cons]
    exact h.queues.push .freeq h.not_mem
  ready := h.ready
  blocks := by
    have hb := h.blocks
    rwa [Multiset.add_cons, ← Multiset.cons_add, ← gather_cons _ .freeq, lines_cons] at hb

theorem pop {u : CoopThread × σ} (h : s.Pool (u::us) fs held) :
    (s.qPop .runq).1 = some u.1.1 ∧ (s.qPop .runq).2.Pool us fs (u.1.1 ::ₘ held) := by
  have hpop := h.queues.pop (i := .runq) (show lines (u::us) fs .runq = _ from rfl)
  refine ⟨hpop.1, ?_, fun v hv => h.ready v (List.mem_cons_of_mem _ hv), ?_⟩
  · rw [← lines_tail us u]
    exact hpop.2
  · have hb := h.blocks
    rwa [gather_tail (lines (u::us) fs) (i := .runq) rfl, lines_tail, Multiset.cons_add,
      ← Multiset.add_cons] at hb

theorem empty_iff (h : s.Pool us fs held) : s.qEmpty .runq = true ↔ us = [] := by
  rw [qEmpty, (h.queues.each .runq).empty_iff]
  exact List.map_eq_nil_iff

/-- A new thread block has a new id. -/
theorem named (h : s.Pool us fs (t ::ₘ held)) :
    Pool { s with tids := Function.update s.tids t s.tid, tid := s.tid+1 } us fs (t ::ₘ held) where
  queues := h.queues
  ready u hu := by
    dsimp only
    rw [Function.update_of_ne (h.ne_block u hu)]
    exact h.ready u hu
  blocks := h.blocks

theorem freeBlock (h : s.Pool us fs held) :
    ∃ fs', s.freeBlock.2.Pool us fs' (s.freeBlock.1 ::ₘ held) := by
  cases fs with
  | nil =>
    have hpop : (s.qPop .freeq).1 = none := by
      have hhead : (s.queues .freeq).head = none := (h.queues.each .freeq).head
      rw [qPop, Queue.pop, hhead]
    refine ⟨[], ?_⟩
    rw [Coop.freeBlock, hpop]
    exact ⟨h.queues, h.ready, by rw [Multiset.add_cons, h.blocks, Multiset.range_succ]⟩
  | cons t fs =>
    obtain ⟨hpop,hq⟩ := h.queues.pop (i := .freeq) (show lines us (t::fs) .freeq = _ from rfl)
    refine ⟨fs, ?_⟩
    rw [Coop.freeBlock, show (s.qPop .freeq).1 = some t from hpop]
    refine ⟨?_, h.ready, ?_⟩
    · rw [← lines_free us fs t]
      exact hq
    · have hb := h.blocks
      rwa [gather_tail (lines us (t::fs)) (i := .freeq) rfl, lines_free, Multiset.cons_add,
        ← Multiset.add_cons] at hb

theorem alloc (h : s.Pool us fs held) :
    ∃ fs', s.thAlloc.2.Pool us fs' (s.thAlloc.1 ::ₘ held) := by
  obtain ⟨fs',h⟩ := h.freeBlock
  exact ⟨fs', h.named⟩

theorem fork (h : s.Pool us fs held) (c : σ) :
    ∃ fs', (s.rpiFork c).2.Pool (us ++ [((s.rpiFork c).1, c)]) fs' held ∧
      (s.rpiFork c).1.1 ∉ gather (lines us fs') + held := by
  obtain ⟨fs',h⟩ := h.alloc
  have hnd := h.blocks ▸ Multiset.nodup_range _
  rw [Multiset.add_cons, Multiset.nodup_cons] at hnd
  exact ⟨fs', (h.save (some (.thread c))).append rfl (Function.update_self ..), hnd.1⟩

end Pool

section Frame
variable (s : Coop σ μ)

theorem freeBlock_frame : s.freeBlock.2.curThread = s.curThread ∧
    s.freeBlock.2.schedulerThread = s.schedulerThread ∧ s.freeBlock.2.stack = s.stack ∧
    s.freeBlock.2.tids = s.tids ∧ s.freeBlock.2.savedSp = s.savedSp := by
  unfold freeBlock
  split <;> exact ⟨rfl, rfl, rfl, rfl, rfl⟩

/-- A fork leaves all blocks but the new one alone. -/
theorem rpiFork_frame (c : σ) : (s.rpiFork c).2.curThread = s.curThread ∧
    (s.rpiFork c).2.schedulerThread = s.schedulerThread ∧
    ∀ t, t ≠ (s.rpiFork c).1.1 → (s.rpiFork c).2.tids t = s.tids t ∧
      (s.rpiFork c).2.savedSp t = s.savedSp t := by
  obtain ⟨hcur,hsched,-,htids,hsaved⟩ := s.freeBlock_frame
  refine ⟨hcur, hsched, fun t ht => ⟨?_, ?_⟩⟩
  · exact (Function.update_of_ne ht _ _).trans (congrFun htids t)
  · exact (Function.update_of_ne ht _ _).trans (congrFun hsaved t)

end Frame

/-- The state of the package stands for the coroutines `r`. Besides the blocks on the two queues
there are those of the thread that runs and of the scheduler. -/
structure Sim (s : Coop σ μ) (r : Rounds CoopThread σ μ) (fs : List ℕ) : Prop where
  pool : s.Pool r.ready fs
    (r.running.toList.map (fun u => u.1.1) ++ s.schedulerThread.toList : List ℕ)
  main : r.running = none → s.stack = .main r.main
  thread : ∀ u, r.running = some u → s.curThread = some u.1.1 ∧ s.tids u.1.1 = u.1.2 ∧
    s.stack = .thread u.2 ∧
    ∃ d, s.schedulerThread = some d ∧ s.savedSp d = some (.main r.main)

namespace Sim
variable {s : Coop σ μ} {r : Rounds CoopThread σ μ} {fs : List ℕ} {us : List (CoopThread × σ)}
  {u : CoopThread × σ} {m : μ}

/-- The blocks of the thread that runs and of the scheduler. -/
theorem held (h : s.Sim ⟨some u,us,m⟩ fs) : ∃ d, s.schedulerThread = some d ∧
    s.Pool us fs (u.1.1 ::ₘ {d}) ∧ s.savedSp d = some (.main m) ∧ d ≠ u.1.1 := by
  obtain ⟨-,-,-,d,hd,hsaved⟩ := h.thread u rfl
  have hpool := h.pool
  rw [hd] at hpool
  refine ⟨d, hd, hpool, hsaved, ?_⟩
  have hnd := hpool.blocks ▸ Multiset.nodup_range _
  have hheld := (Multiset.nodup_add.mp hnd).2.1
  rintro rfl
  simp at hheld

/-- The block in which the stack of the thread that ran is saved. -/
theorem rpiCswitch_eq {old new : ℕ} {k stack : CoopStack σ μ} (h : s.savedSp new = some stack) :
    s.rpiCswitch old new k =
      some { s with savedSp := Function.update s.savedSp old (some k), stack := stack } := by
  rw [rpiCswitch, h]
  rfl

theorem exit (h : s.Sim ⟨some u,us,m⟩ fs) (k : σ) :
    ∃ s', s.rpiExit (.thread k) = some s' ∧ s'.Sim ⟨us.head?,us.tail,m⟩ (u.1.1::fs) := by
  obtain ⟨hcur,-,-,-⟩ := h.thread u rfl
  obtain ⟨d,hd,hpool,hsaved,hne⟩ := h.held
  have hpush := (hpool.save (some (.thread k))).push
  rw [rpiExit, hcur, Option.bind_some]
  cases us with
  | nil =>
    have hempty : (s.qPush .freeq u.1.1).qEmpty .runq = true := hpool.push.empty_iff.mpr rfl
    dsimp only
    rw [if_pos hempty, show (s.qPush .freeq u.1.1).schedulerThread = some d from hd,
      Option.bind_some]
    refine ⟨_, rpiCswitch_eq hsaved, ?_, fun _ => rfl, nofun⟩
    exact hpush.congr rfl rfl rfl rfl rfl
  | cons v us =>
    have hempty : ¬(s.qPush .freeq u.1.1).qEmpty .runq = true := fun hc =>
      List.cons_ne_nil v us (hpool.push.empty_iff.mp hc)
    have hv := h.pool.ready v (List.mem_cons_self ..)
    dsimp only
    rw [if_neg hempty, hpool.push.pop.1, Option.bind_some]
    refine ⟨_, rpiCswitch_eq hv.2, ?_, nofun, fun w hw => ?_⟩
    · have hheld := congrArg (fun o => ((v.1.1 :: o.toList : List ℕ) : Multiset ℕ)) hd
      exact (hpush.pop.2.trans_held hheld).congr rfl rfl rfl rfl rfl
    · obtain rfl := Option.some.inj hw
      refine ⟨rfl, hv.1, rfl, d, hd, ?_⟩
      exact (Function.update_of_ne hne _ _).trans hsaved

theorem yield (h : s.Sim ⟨some u,us,m⟩ fs) (k : σ) :
    ∃ s', s.rpiYield (.thread k) = some s' ∧
      s'.Sim ⟨(us ++ [(u.1,k)]).head?,(us ++ [(u.1,k)]).tail,m⟩ fs := by
  obtain ⟨hcur,htid,-,-⟩ := h.thread u rfl
  obtain ⟨d,hd,hpool,hsaved,hne⟩ := h.held
  rw [rpiYield]
  cases us with
  | nil =>
    have hempty : s.qEmpty .runq = true := h.pool.empty_iff.mpr rfl
    rw [if_pos hempty]
    refine ⟨_, rfl, h.pool.congr rfl rfl rfl rfl rfl, nofun, fun w hw => ?_⟩
    obtain rfl := Option.some.inj hw
    exact ⟨hcur, htid, rfl, d, hd, hsaved⟩
  | cons v us =>
    have hempty : ¬s.qEmpty .runq = true := fun hc =>
      List.cons_ne_nil v us (h.pool.empty_iff.mp hc)
    have hv := h.pool.ready v (List.mem_cons_self ..)
    have happ := (hpool.save (some (.thread k))).append htid (Function.update_self ..)
    have hpop : ((s.qAppend .runq u.1.1).qPop .runq).1 = some v.1.1 := happ.pop.1
    rw [if_neg hempty, hcur, Option.bind_some]
    dsimp only
    rw [hpop, Option.bind_some]
    refine ⟨_, rpiCswitch_eq hv.2, ?_, nofun, fun w hw => ?_⟩
    · have hheld := congrArg (fun o => ((v.1.1 :: o.toList : List ℕ) : Multiset ℕ)) hd
      exact (happ.pop.2.trans_held hheld).congr rfl rfl rfl rfl rfl
    · obtain rfl := Option.some.inj hw
      refine ⟨rfl, hv.1, rfl, d, hd, ?_⟩
      exact (Function.update_of_ne hne _ _).trans hsaved

/-- The scheduler has a block of its own once there are threads to run. -/
theorem scheduler (h : s.Sim ⟨none,us,m⟩ fs) :
    ∃ d s' fs', (match s.schedulerThread with
        | some d => (d, s)
        | none => (s.thAlloc.1, { s.thAlloc.2 with schedulerThread := some s.thAlloc.1 })) =
      (d, s') ∧ s'.Pool us fs' {d} ∧ s'.schedulerThread = some d := by
  rcases hd : s.schedulerThread with _ | d
  · have hpool := h.pool
    rw [hd] at hpool
    obtain ⟨fs',hpool⟩ := hpool.alloc
    exact ⟨_, _, fs', rfl, hpool.congr rfl rfl rfl rfl rfl, rfl⟩
  · have hpool := h.pool
    rw [hd] at hpool
    exact ⟨d, s, fs, rfl, hpool, hd⟩

theorem threadStart (h : s.Sim ⟨none,us,m⟩ fs) (k : μ) :
    ∃ s' fs', s.rpiThreadStart (.main k) = some s' ∧ s'.Sim ⟨us.head?,us.tail,k⟩ fs' := by
  rw [rpiThreadStart]
  cases us with
  | nil =>
    rw [if_pos (h.pool.empty_iff.mpr rfl)]
    exact ⟨_, fs, rfl, h.pool.congr rfl rfl rfl rfl rfl, fun _ => rfl, nofun⟩
  | cons v us =>
    obtain ⟨d,s',fs',hs',hpool,hd⟩ := h.scheduler
    have hempty : ¬s.qEmpty .runq = true := fun hc =>
      List.cons_ne_nil v us (h.pool.empty_iff.mp hc)
    have hsave := hpool.save (some (.main k))
    have hv := hpool.ready v (List.mem_cons_self ..)
    rw [if_neg hempty, hs']
    dsimp only
    rw [hpool.pop.1, Option.bind_some]
    refine ⟨_, fs', rpiCswitch_eq hv.2, ?_, nofun, fun w hw => ?_⟩
    · have hheld := congrArg (fun o => ((v.1.1 :: o.toList : List ℕ) : Multiset ℕ)) hd
      exact (hsave.pop.2.trans_held hheld).congr rfl rfl rfl rfl rfl
    · obtain rfl := Option.some.inj hw
      exact ⟨rfl, hv.1, rfl, d, hd, Function.update_self ..⟩

/-- A new thread does not have a block that is in use. -/
theorem fork (h : s.Sim r fs) (c : σ) (stack : CoopStack σ μ) :
    ∃ fs', Pool { (s.rpiFork c).2 with stack := stack } (r.ready ++ [((s.rpiFork c).1, c)]) fs'
        (r.running.toList.map (fun u => u.1.1) ++ (s.rpiFork c).2.schedulerThread.toList : List ℕ) ∧
      (s.rpiFork c).1 ∉ r.live ∧
      ∀ t ∈ r.running.toList.map (fun u => u.1.1) ++ s.schedulerThread.toList,
        t ≠ (s.rpiFork c).1.1 := by
  obtain ⟨fs',hpool,hfresh⟩ := h.pool.fork c
  rw [Multiset.mem_add, not_or] at hfresh
  obtain ⟨-,hd,-⟩ := s.rpiFork_frame c
  rw [hd]
  refine ⟨fs', hpool.congr rfl rfl rfl rfl rfl, fun hlive => ?_, ?_⟩
  · obtain ⟨u,hu,heq⟩ := List.mem_map.mp hlive
    rw [← heq] at hfresh
    rcases List.mem_append.mp hu with hu | hu
    · exact hfresh.2 (List.mem_append_left _ (List.mem_map_of_mem hu))
    · exact hfresh.1 (mem_gather.mpr ⟨.runq, List.mem_map_of_mem (f := fun u => u.1.1) hu⟩)
  · rintro t ht rfl
    exact hfresh.2 ht

theorem step (p : Coroutines CoopThread σ μ) (h : s.Sim r fs) :
    (s.step p = none ∧ ∃ m, s.stack = .main m ∧ p.main m = .stop) ∨
      ∃ s' e r' fs', s.step p = some s' ∧ Rounds.Step p e r r' ∧ e.turns = s.turn p ∧
        s'.Sim r' fs' := by
  obtain ⟨_ | u,us,m⟩ := r
  · have hstack := h.main rfl
    rw [Coop.step, turn, hstack]
    dsimp only
    cases hop : p.main m with
    | work k =>
      exact .inr ⟨_, _, _, fs, rfl, .mainWork hop, rfl, h.pool.congr rfl rfl rfl rfl rfl,
        fun _ => rfl, nofun⟩
    | fork c k =>
      obtain ⟨fs',hpool,hfresh,-⟩ := h.fork c (.main (k (s.rpiFork c).1))
      exact .inr ⟨_, _, _, fs', rfl, .mainFork hop hfresh, rfl, hpool, fun _ => rfl, nofun⟩
    | start k =>
      obtain ⟨s',fs',hs',hsim⟩ := h.threadStart k
      exact .inr ⟨s', _, _, fs', hs', .start hop, rfl, hsim⟩
    | stop => exact .inl ⟨rfl, m, rfl, hop⟩
  · obtain ⟨hcur,htid,hstack,d,hd,hsaved⟩ := h.thread u rfl
    rw [Coop.step, turn, hstack]
    dsimp only
    cases hop : p.thread u.2 with
    | work k =>
      refine .inr ⟨_, _, _, fs, rfl, .work hop, rfl, h.pool.congr rfl rfl rfl rfl rfl, nofun, ?_⟩
      intro v hv
      obtain rfl := Option.some.inj hv
      exact ⟨hcur, htid, rfl, d, hd, hsaved⟩
    | fork c k =>
      obtain ⟨fs',hpool,hfresh,hne⟩ := h.fork c (.thread (k (s.rpiFork c).1))
      obtain ⟨hcur',hd',hkeep⟩ := s.rpiFork_frame c
      refine .inr ⟨_, _, _, fs', rfl, .fork hop hfresh, rfl, hpool, nofun, fun v hv => ?_⟩
      obtain rfl := Option.some.inj hv
      have hu := hkeep u.1.1 (hne _ (List.mem_append_left _ (List.mem_singleton_self _)))
      rw [hd] at hne
      have hdne := hkeep d (hne _ (List.mem_append_right _ (List.mem_singleton_self _)))
      exact ⟨hcur'.trans hcur, hu.1.trans htid, rfl, d, hd'.trans hd, hdne.2.trans hsaved⟩
    | yield k =>
      obtain ⟨s',hs',hsim⟩ := h.yield k
      exact .inr ⟨s', _, _, fs, hs', .yield hop, rfl, hsim⟩
    | exit k =>
      obtain ⟨s',hs',hsim⟩ := h.exit k
      exact .inr ⟨s', _, _, _, hs', .exit hop, rfl, hsim⟩

theorem boot (m : μ) : (Coop.boot m : Coop σ μ).Sim ⟨none,[],m⟩ [] where
  pool := by
    have hzero : gather (lines ([] : List (CoopThread × σ)) []) = 0 := by
      refine Multiset.eq_zero_of_forall_notMem fun t ht => ?_
      obtain ⟨q,hq⟩ := mem_gather.mp ht
      cases q <;> cases hq
    refine ⟨⟨fun q => ?_, ?_⟩, nofun, ?_⟩
    · cases q <;> exact IsQueue.zero
    · exact hzero ▸ Multiset.nodup_zero
    · rw [hzero]
      rfl
  main _ := rfl
  thread := nofun

/-- What the package does in some steps, the coroutines do too. -/
theorem run (p : Coroutines CoopThread σ μ) {n : ℕ} {s' : Coop σ μ} (h : s.Sim r fs)
    (hrun : s.run p n = some s') : ∃ es r' fs', Rounds.Steps p es r r' ∧
      Rounds.turns es = s.turns p n ∧ s'.Sim r' fs' := by
  induction n generalizing s r fs with
  | zero =>
    cases hrun
    exact ⟨[], r, fs, .refl r, rfl, h⟩
  | succ n ih =>
    obtain ⟨s₁,hs₁,hrest⟩ := Option.bind_eq_some_iff.mp hrun
    rcases h.step p with ⟨hnone,-⟩ | ⟨s₂,e,r₁,fs₁,hs₂,hstep,hturn,hsim⟩
    · rw [hnone] at hs₁
      cases hs₁
    · obtain rfl := Option.some.inj (hs₂.symm.trans hs₁)
      obtain ⟨es,r',fs',hsteps,hturns,hsim'⟩ := ih hsim hrest
      refine ⟨e::es, r', fs', hsteps.head hstep, ?_, hsim'⟩
      rw [Coop.turns, hs₁]
      exact congrArg₂ (· + ·) hturn hturns

end Sim

/-- The package runs the coroutines and nothing else: in every run from the start the blocks in use
are those of the threads that live, all queues are in order, no block is lost or used twice, every
thread that was forked has exited or is there, and only the main program ever stops. -/
theorem coop_refines {σ μ : Type} (p : Coroutines CoopThread σ μ) {m : μ} {n : ℕ} {s : Coop σ μ}
    (h : (boot m : Coop σ μ).run p n = some s) :
    ∃ es r fs, Rounds.Steps p es ⟨none,[],m⟩ r ∧ s.Sim r fs ∧
      Rounds.forked es = Rounds.exited es + r.names ∧ r.names.Nodup ∧
      (s.step p = none → ∃ m, s.stack = .main m ∧ p.main m = .stop) := by
  obtain ⟨es,r,fs,hsteps,-,hsim⟩ := (Sim.boot m).run p h
  refine ⟨es, r, fs, hsteps, hsim, ?_, ?_, fun hnone => ?_⟩
  · exact (zero_add _).symm.trans hsteps.names_add
  · exact hsteps.nodup Multiset.nodup_zero
  · rcases hsim.step p with ⟨-,hstop⟩ | ⟨s',_,_,_,hs',_⟩
    · exact hstop
    · rw [hnone] at hs'
      cases hs'

/-- The main program forks two threads and starts them; each yields once and exits. -/
def twoThreads : Coroutines CoopThread ℕ ℕ where
  thread
    | 0 => .yield 1
    | c => .exit c
  main
    | 0 => .fork 0 fun _ => 1
    | 1 => .fork 0 fun _ => 2
    | 2 => .start 3
    | _ => .stop

theorem coop_refines_two : ∃ s, (boot 0 : Coop ℕ ℕ).run twoThreads 7 = some s ∧
    ∃ es r fs, Rounds.Steps twoThreads es ⟨none,[],0⟩ r ∧ s.Sim r fs ∧
      Rounds.forked es = Rounds.exited es + r.names ∧ r.names.Nodup ∧
      (s.step twoThreads = none → ∃ m, s.stack = .main m ∧ twoThreads.main m = .stop) := by
  have hruns : ((boot 0 : Coop ℕ ℕ).run twoThreads 7).isSome = true := by decide +kernel
  obtain ⟨s,hs⟩ := Option.isSome_iff_exists.mp hruns
  exact ⟨s, hs, coop_refines twoThreads hs⟩

/-- The threads in the run queue get their turns one after the other: after `j` turns the first `j`
of them have had theirs, the last of these is still running, and the others are in front of all that
came later. -/
theorem coop_in_turn {σ μ : Type} (p : Coroutines CoopThread σ μ) {m : μ} {n k : ℕ}
    {s s' : Coop σ μ} (h : (boot m : Coop σ μ).run p n = some s) {ts : List ℕ}
    (hts : IsQueue s.next (s.queues .runq) ts) (hrun : s.run p k = some s')
    (hle : s.turns p k ≤ ts.length) :
    ∃ ts', IsQueue s'.next (s'.queues .runq) ts' ∧ ts.drop (s.turns p k) <+: ts' ∧
      ∀ i, s.turns p k = i+1 → s'.curThread = ts[i]? := by
  obtain ⟨_,r,fs,-,-,hsim⟩ := (Sim.boot m).run p h
  obtain ⟨es,r',fs',hsteps,hturns,hsim'⟩ := hsim.run p hrun
  obtain rfl := hts.unique (hsim.pool.queues.each .runq)
  rw [lines, List.length_map, ← hturns] at hle
  obtain ⟨hwait,hturn⟩ := hsteps.turned hle
  rw [← hturns]
  refine ⟨_, hsim'.pool.queues.each .runq, ?_, fun i hi => ?_⟩
  · rw [lines, lines, ← List.map_drop]
    exact hwait.map _
  · have hlt : i < r.ready.length := by omega
    have hfirst := hturn i hi
    rw [List.getElem?_map, List.getElem?_eq_getElem hlt, Option.map_some] at hfirst
    obtain ⟨u,hu,heq⟩ := Option.map_eq_some_iff.mp hfirst
    rw [(hsim'.thread u hu).1, heq, lines, List.getElem?_map, List.getElem?_eq_getElem hlt]
    rfl

/-- The first thread yields to the second one. -/
theorem coop_in_turn_two : ∃ s s' : Coop ℕ ℕ, (boot 0 : Coop ℕ ℕ).run twoThreads 3 = some s ∧
    s.run twoThreads 1 = some s' ∧
    ∃ ts', IsQueue s'.next (s'.queues .runq) ts' ∧ [1].drop (s.turns twoThreads 1) <+: ts' ∧
      ∀ i, s.turns twoThreads 1 = i+1 → s'.curThread = [1][i]? := by
  have hruns : ((boot 0 : Coop ℕ ℕ).run twoThreads 3).isSome = true := rfl
  have hnext : ((((boot 0 : Coop ℕ ℕ).run twoThreads 3).get hruns).run twoThreads 1).isSome =
    true := rfl
  refine ⟨_, _, (Option.some_get hruns).symm, (Option.some_get hnext).symm, ?_⟩
  exact coop_in_turn twoThreads (Option.some_get hruns).symm ⟨⟨rfl, rfl⟩, rfl, rfl⟩
    (Option.some_get hnext).symm le_rfl

end Coop
end DistributedPis
