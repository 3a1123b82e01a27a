import DistributedPis.Libpi.Queue
import Mathlib

/-! The thread package of the preemptive scheduler, at the level of its pointers. Thread blocks
and sleep records are numbered in the order in which they are allocated; sleep record 0 is
the static list head. The register save areas are modelled apart. -/
namespace DistributedPis

-- queue numbers are written as literals
instance queues_neZero : NeZero 5 := ⟨by decide⟩

/-- `sleep_tcb_t` without its `next`. The fields of the list head are never read. -/
structure SleepTcb where
  tcb : ℕ
  startTm : BitVec 32
  delay : BitVec 32
  queue : Fin 5
  deriving DecidableEq

/-- The wake-up test, in the arithmetic of the 32-bit clock. -/
def SleepTcb.due (now : BitVec 32) (n : SleepTcb) : Bool := n.delay ≤ now - n.startTm

/-- How many microseconds pass between two calls of `resurf`. -/
def resurfDelay : BitVec 32 := 1000000

/-- The globals of rpi-thread.c and the two heaps its pointers point into. The address space
has no room for 2^31 threads, so the counters cannot wrap. -/
structure Sched where
  next : ℕ → Option ℕ
  freeq : Queue ℕ
  queues : Fin 5 → Queue ℕ
  curThread : Option ℕ
  schedulerThread : Option ℕ
  nalloced : ℕ
  curQueue : Fin 5
  resurfTime : BitVec 32
  link : ℕ → Option ℕ
  node : ℕ → SleepTcb
  sleepTail : ℕ
  kmallocs : ℕ
  sleeping : ℤ

namespace Sched

/-- The globals as they are linked. -/
def zero : Sched :=
  ⟨fun _ => none, .zero, fun _ => .zero, none, none, 0, 0, 0, fun _ => none, fun _ => ⟨0,0,0,0⟩,
    0, 0, 0⟩

def append (s : Sched) (i : Fin 5) (t : ℕ) : Sched :=
  { s with
    next := ((s.queues i).append s.next t).1
    queues := Function.update s.queues i ((s.queues i).append s.next t).2 }

def push (s : Sched) (i : Fin 5) (t : ℕ) : Sched :=
  { s with
    next := ((s.queues i).push s.next t).1
    queues := Function.update s.queues i ((s.queues i).push s.next t).2 }

def pop (s : Sched) (i : Fin 5) : Option ℕ × Sched :=
  (((s.queues i).pop s.next).1,
    { s with queues := Function.update s.queues i ((s.queues i).pop s.next).2 })

/-- A cached thread block, else a new one. -/
def thAlloc (s : Sched) : ℕ × Sched :=
  match (s.freeq.pop s.next).1 with
  | some t => (t, { s with freeq := (s.freeq.pop s.next).2 })
  | none => (s.nalloced, { s with nalloced := s.nalloced+1 })

def fork (s : Sched) : Sched := s.thAlloc.2.append 0 s.thAlloc.1

/-- The scheduler gets a block of its own, on no queue, and is entered. -/
def threadStart (now : BitVec 32) (s : Sched) : Sched :=
  if (s.queues 0).empty then s else
    match s.schedulerThread with
    | none => { s.thAlloc.2 with
        schedulerThread := some s.thAlloc.1
        curThread := some s.thAlloc.1
        resurfTime := now }
    | some _ => { s with resurfTime := now }

/-- Put the thread of record `cur` back on its queue and take the record out of the list. -/
def rouse (prev cur : ℕ) (s : Sched) : Sched :=
  let s := s.push (s.node cur).queue (s.node cur).tcb
  { s with
    sleepTail := if s.sleepTail = cur then prev else s.sleepTail
    link := Function.update s.link prev (s.link cur)
    sleeping := s.sleeping-1 }

/-- The loop of `wake`; the fuel is a bound on the number of sleep records. -/
def wakeLoop (now : BitVec 32) : ℕ → Sched → ℕ → Option ℕ → ℕ → Option (Sched × ℕ)
  | _, s, _, none, awoke => some (s,awoke)
  | 0, _, _, some _, _ => none
  | fuel+1, s, prev, some cur, awoke =>
    if (s.node cur).due now then
      wakeLoop now fuel (s.rouse prev cur) prev ((s.rouse prev cur).link cur) (awoke+1)
    else
      (s.link prev).bind fun prev => wakeLoop now fuel s prev (s.link cur) awoke

/-- Returns the number of threads that were woken. -/
def wake (now : BitVec 32) (s : Sched) : Option (Sched × ℕ) :=
  s.wakeLoop now s.kmallocs 0 (s.link 0) 0

/-- Empty queue `i` into the first one. -/
def drain (i : Fin 5) : ℕ → Sched → Option Sched
  | 0, s => if (s.queues i).empty then some s else none
  | fuel+1, s =>
    if (s.queues i).empty then some s
    else (s.pop i).1.bind fun t => drain i fuel ((s.pop i).2.push 0 t)

def resurf (now : BitVec 32) (s : Sched) : Option Sched :=
  (([1,2,3,4] : List (Fin 5)).foldlM (fun s i => drain i (s.queues i).cnt s) s).map
    fun s => { s with resurfTime := now }

/-- The part of the scan that switches to the first thread of queue `i`. -/
def dispatch (i : Fin 5) (s : Sched) : Sched :=
  { (s.pop i).2 with curQueue := i, curThread := (s.pop i).1 }

/-- Back to the scheduler. -/
def reenter (s : Sched) : Sched := { s with curThread := s.schedulerThread }

/-- A yield keeps the first queue. -/
def saveContextYield (t : ℕ) (s : Sched) : Sched := (s.append 0 t).reenter

/-- The queue below, except for the last one. -/
def demote (i : Fin 5) : Fin 5 := if i = 4 then i else i+1

/-- A preemption demotes. -/
def saveContext (t : ℕ) (s : Sched) : Sched := (s.append (demote s.curQueue) t).reenter

/-- A new record at the tail of the sleep list. -/
def sleep (delay now : BitVec 32) (t : ℕ) (s : Sched) : Sched :=
  let cur := s.kmallocs+1
  reenter { s with
    sleeping := s.sleeping+1
    kmallocs := cur
    node := Function.update s.node cur ⟨t, now, delay, s.curQueue⟩
    link := Function.update (Function.update s.link cur none) s.sleepTail (some cur)
    sleepTail := cur }

/-- The user thread that runs, if one does. -/
def user (s : Sched) : Option ℕ := if s.curThread = s.schedulerThread then none else s.curThread

end Sched

/-- What can happen once the system has started. The clock is read at any value. -/
inductive SchedEvent where
  | fork
  | wake (now : BitVec 32)
  | resurf (now : BitVec 32)
  | dispatch (i : Fin 5)
  | saveContext
  | saveContextYield
  | sleep (delay now : BitVec 32)
  | exit

/-- The scheduler, and the threads that were forked and have not exited. -/
structure Threads where
  sched : Sched
  live : List ℕ

namespace Threads

def fork (s : Threads) : Threads := ⟨s.sched.fork, s.sched.thAlloc.1 :: s.live⟩

def forks : ℕ → Threads
  | 0 => ⟨.zero,[]⟩
  | n+1 => (forks n).fork

/-- Some threads are forked, then `rpi_thread_start` is called. -/
def boot (n : ℕ) (now : BitVec 32) : Threads :=
  { forks n with sched := (forks n).sched.threadStart now }

/-- The scheduler acts while no user thread runs, the other operations are on behalf of the
one that does. -/
def allows (s : Threads) : SchedEvent → Bool
  | .fork => true
  | .wake _ | .resurf _ => s.sched.user.isNone
  | .dispatch i => s.sched.user.isNone && !(s.sched.queues i).empty
  | .saveContext | .saveContextYield | .sleep _ _ | .exit => s.sched.user.isSome

/-- No result where the event is not allowed, or its code does not come back. -/
def step (s : Threads) (e : SchedEvent) : Option Threads :=
  if s.allows e then
    match e with
    | .fork => some s.fork
    | .wake now => (s.sched.wake now).map fun r => { s with sched := r.1 }
    | .resurf now => (s.sched.resurf now).map fun t => { s with sched := t }
    | .dispatch i => some { s with sched := s.sched.dispatch i }
    | .saveContext => s.sched.user.map fun t => { s with sched := s.sched.saveContext t }
    | .saveContextYield =>
      s.sched.user.map fun t => { s with sched := s.sched.saveContextYield t }
    | .sleep delay now => s.sched.user.map fun t => { s with sched := s.sched.sleep delay now t }
    | .exit => s.sched.user.map fun t => ⟨s.sched.reenter, s.live.erase t⟩
  else none

end Threads
end DistributedPis
