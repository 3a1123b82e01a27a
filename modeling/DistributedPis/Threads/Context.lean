import DistributedPis.Library.Arm
import Mathlib

/-! The context switches of the thread package: the routines of thread-asm.S and the exception
handlers, instruction by instruction, with the C functions between them reduced to what they
do to the save areas. Any other register and word they may leave behind is arbitrary. -/
namespace DistributedPis
open Library

/-- The C functions that the handlers branch to. -/
inductive CFn where
  | saveContext
  | saveContextYield
  | rpiSleep
  | rpiExit
  deriving DecidableEq

/-- `{r0-r12,lr}` -/
def gprs : List Reg := (List.finRange 13).map .r ++ [.lr]

def intStackAddr : Word := 0x9000000

/-- Interrupts off, IRQ mode. -/
def irqMode : BitVec 8 := 0b11010010

/-- Interrupts off, supervisor mode. -/
def superMode : BitVec 8 := 0b11010011

open Instr (ops)
open Op

/-- Save to the area at r0, resume what the area at r1 holds. -/
def rpiCswitch2 : List (Instr CFn) :=
  ops [.add (.r 0) (.r 0) 64, stmda (.r 0) gprs, mov (.r 5) (.r 1), mov (.r 4) (.r 0),
    mrsCpsr (.r 2), mov (.r 1) .lr, mov (.r 0) .sp, stmda (.r 4) [.r 0, .r 1, .r 2],
    mov (.r 0) (.r 5), ldmiaUser (.r 0) [.sp, .lr], .add (.r 0) (.r 0) 8, msrCpsr irqMode,
    mov .sp (.r 0), pop [.r 3], msrSpsr (.r 3), pop gprs] ++ [.movsPcLr]

/-- Resume what the area at r0 holds. -/
def rpiEnter : List (Instr CFn) :=
  ops [msrCpsr irqMode, mov .sp (.r 0), pop [.r 1, .r 2], msrCpsr superMode, mov .sp (.r 1),
    mov .lr (.r 2), msrCpsr irqMode, pop [.r 1], msrSpsr (.r 1), pop gprs] ++
  [.movsPcLr]

def interruptAsm : List (Instr CFn) :=
  ops [msrCpsr irqMode, movImm .sp intStackAddr, .sub .lr .lr 4, push gprs,
    mrsSpsr (.r 1), push [.r 1], stmfdUser .sp [.sp, .lr], .sub .sp .sp 8, mov (.r 0) .sp] ++
  [.b .saveContext]

def swiHandlerAsm : List (Instr CFn) :=
  ops [cmp (.r 0) 1] ++ [.beq .rpiExit] ++
  ops [movImm .sp intStackAddr, push gprs, mrsSpsr (.r 4), push [.r 4],
    stmfdUser .sp [.sp, .lr], .sub .sp .sp 8, cmp (.r 0) 2, moveq (.r 0) (.r 1),
    moveq (.r 1) .sp] ++ [.beq .rpiSleep] ++
  ops [mov (.r 0) .sp] ++ [.b .saveContextYield]

/-- The 17 words that a handler pushes. -/
def intFrame : Word := intStackAddr - 68

/-- Where the save areas are, `none` standing for the scheduler's. They overlap neither each
other nor the handlers' frame nor the copy of a thread block on the stack of `rpi_sleep`. -/
structure Layout (n : ℕ) where
  base : Option (Fin n) → Word
  frame : Word
  old : Word
  base_apart : ∀ x y, x ≠ y → Apart 17 (base x) (base y)
  int_apart : ∀ x, Apart 17 intFrame (base x)
  old_apart : ∀ x, Apart 17 old (base x)

namespace Layout
variable {n : ℕ} (L : Layout n)

/-- The scheduler's save area. -/
def sched : Word := L.base none

/-- The supervisor stack pointer when `rpi_sleep` calls `rpi_cswitch2`; `frame` is what its
compiled code takes from the stack. -/
def sleepSp : Word := intFrame - L.frame

def Saved (a : Word) : Prop := ∃ x, ∃ k < 17, a = word (L.base x) k

instance (a : Word) : Decidable (L.Saved a) := inferInstanceAs (Decidable (∃ _, ∃ _ < 17, _))

end Layout

/-- What compiled code leaves in the registers of its mode and in memory. -/
structure CCode where
  r : Fin 13 → Word
  sp : Word
  lr : Word
  pc : Word
  flags : BitVec 24
  mem : Word → Word

/-- Compiled code runs. It writes no save area and does not change its mode. -/
def compiled {n : ℕ} (L : Layout n) (c : CCode) (s : Arm) : Arm where
  reg
    | .gpr i => c.r i
    | .sp m => if m = s.mode then c.sp else s.reg (.sp m)
    | .lr m => if m = s.mode then c.lr else s.reg (.lr m)
    | .spsr m => s.reg (.spsr m)
  flags := c.flags
  ctl := s.ctl
  mem a := if L.Saved a then s.mem a else c.mem a
  pc := c.pc

/-- The values that `rpi_fork` computes for a new thread. -/
structure ForkArgs where
  sp : Word
  arg : Word
  code : Word
  trampoline : Word

/-- Interrupts on and user mode. -/
def userPsr (cpsr : Word) : Word :=
  ((cpsr &&& ~~~0b11000000#32) &&& ~~~0b11111#32) ||| 0b10000#32

/-- The words of a fresh save area; `rpi_fork` and `rpi_forkSched` differ in the status. -/
def initArea (b : Word) (f : ForkArgs) (psr : Word) (m : Word → Word) : Word → Word :=
  storeWords (storeWords (storeWords (storeWords m b [f.sp]) (word b 2) [psr])
    (word b 8) [f.arg, f.code]) (word b 16) [f.trampoline]

/-- The machine, the thread that runs (`none` is the scheduler) and the forked threads. Kept
besides: the machine as it was when `threadSched` last called `rpi_cswitch2`. -/
structure Ctx (n : ℕ) where
  arm : Arm
  cur : Option (Fin n)
  forked : Fin n → Bool
  call : Arm

/-- The software interrupts are told apart by r0 when they are taken. -/
inductive CtxEvent (n : ℕ) where
  | run (c : CCode)
  | fork (t : Fin n) (f : ForkArgs)
  | dispatch (t : Fin n) (ret : Word)
  | timer (c : CCode)
  | swi (c : CCode)

namespace Ctx
variable {n : ℕ} (L : Layout n)

/-- `rpi_enter(scheduler_thread->saved_regs)` -/
def enter (s : Arm) : Arm := (Instr.run rpiEnter (s.put (.gpr 0) L.sched)).1

/-- `rpi_thread_start` in the main program: a block for the scheduler, and into it. -/
def start (f : ForkArgs) (s : Arm) : Ctx n :=
  let s := { s with mem := initArea L.sched f s.cpsr s.mem }
  ⟨enter L s, none, fun _ => false, s⟩

/-- The call of `rpi_cswitch2` in `threadSched`. -/
def callSwitch (t : Fin n) (ret : Word) (s : Arm) : Arm :=
  ((s.put (.gpr 0) L.sched).put (.gpr 1) (L.base t)).write .lr ret

/-- The C functions of the handlers, for the current thread `x`. The first three copy the
registers to its save area; all end in a switch to the scheduler. -/
def handle (x : Option (Fin n)) (c : CCode) : CFn → Arm → Arm
  | .saveContext, s | .saveContextYield, s =>
    enter L (compiled L c { s with mem := copyWords 17 (L.base x) (s.read (.r 0)) s.mem })
  | .rpiExit, s => enter L (compiled L c s)
  | .rpiSleep, s =>
    let t := compiled L c { s with mem := copyWords 17 (L.base x) (s.read (.r 1)) s.mem }
    (Instr.run rpiCswitch2
      (((t.put (.gpr 0) L.old).put (.gpr 1) L.sched).write .sp (s.read .sp - L.frame))).1

def step (s : Ctx n) : CtxEvent n → Option (Ctx n)
  | .run c => some { s with arm := compiled L c s.arm }
  | .fork t f =>
    if s.forked t then none
    else some { s with
      arm.mem := initArea (L.base t) f (userPsr s.arm.cpsr) s.arm.mem
      forked := Function.update s.forked t true }
  | .dispatch t ret =>
    if s.cur = none ∧ s.forked t then
      let call := callSwitch L t ret s.arm
      some { s with arm := (Instr.run rpiCswitch2 call).1, cur := some t, call := call }
    else none
  | .timer c =>
    if s.arm.irqOff then none
    else
      let r := Instr.run interruptAsm (s.arm.take .irq (s.arm.pc + 4))
      r.2.map fun f => { s with arm := handle L s.cur c f r.1, cur := none }
  | .swi c =>
    if s.arm.mode = .usr then
      let r := Instr.run swiHandlerAsm (s.arm.take .svc (s.arm.pc + 4))
      r.2.map fun f => { s with arm := handle L s.cur c f r.1, cur := none }
    else none

/-- What the scheduler finds when it goes on after its call. -/
structure Preserved (call resume : Arm) : Prop where
  reg : ∀ i : Fin 13, 4 ≤ i → resume.reg (.gpr i) = call.reg (.gpr i)
  sp : resume.reg (.sp .svc) = call.reg (.sp .svc)
  pc : resume.pc = call.reg (.lr .svc)
  ctl : resume.ctl = call.ctl

/-- The event is a call of `sleep` by the thread that runs. -/
def Sleeps (s : Ctx n) : CtxEvent n → Prop
  | .swi _ => s.arm.reg (.gpr 0) = 2
  | _ => False

/-- The thread that runs is preempted, yields or sleeps. -/
def Suspends (s : Ctx n) : CtxEvent n → Prop
  | .timer _ => True
  | .swi _ => s.arm.reg (.gpr 0) ≠ 1
  | _ => False

/-- Where it is to go on: at the interrupted instruction, or behind the software interrupt. -/
def resumeAt (s : Ctx n) : CtxEvent n → Word
  | .swi _ => s.arm.pc + 4
  | _ => s.arm.pc

/-- A thread that was suspended in `a` goes on at `pc`. -/
structure GoesOn (a : Arm) (pc : Word) (resume : Arm) : Prop where
  reg : ∀ i : Fin 13, resume.reg (.gpr i) = a.reg (.gpr i)
  sp : resume.reg (.sp .usr) = a.reg (.sp .usr)
  lr : resume.reg (.lr .usr) = a.reg (.lr .usr)
  cpsr : resume.cpsr = a.cpsr
  pc : resume.pc = pc

end Ctx
end DistributedPis
