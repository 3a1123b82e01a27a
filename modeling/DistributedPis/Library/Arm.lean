import DistributedPis.Library.Words

/-! A fragment of the 32-bit ARM architecture: user, supervisor and IRQ mode with their banked
stack pointers, link registers and saved status registers, and the instructions that switch
contexts are made of. A routine is a straight list of instructions with branches out of it. -/
namespace DistributedPis.Library

inductive Mode where
  | usr
  | irq
  | svc
  | other
  deriving DecidableEq

namespace Mode

/-- The mode field of a status register. -/
def bits : Mode → BitVec 5
  | usr => 0b10000
  | irq => 0b10010
  | svc => 0b10011
  | other => 0

def ofBits (b : BitVec 5) : Mode :=
  if b = usr.bits then usr else if b = irq.bits then irq else if b = svc.bits then svc else other

end Mode

-- register numbers are written as literals
instance regs_neZero : NeZero 13 := ⟨by decide⟩

/-- A register as an instruction names it. -/
inductive Reg where
  | r (i : Fin 13)
  | sp
  | lr
  deriving DecidableEq

/-- A register of the machine. -/
inductive PhysReg where
  | gpr (i : Fin 13)
  | sp (m : Mode)
  | lr (m : Mode)
  | spsr (m : Mode)
  deriving DecidableEq

/-- The register that a name stands for in a mode. -/
def Reg.phys (m : Mode) : Reg → PhysReg
  | r i => .gpr i
  | sp => .sp m
  | lr => .lr m

/-- The status register is kept as its flags and its control byte (interrupt masks, state
and mode). -/
structure Arm where
  reg : PhysReg → Word
  flags : BitVec 24
  ctl : BitVec 8
  mem : Word → Word
  pc : Word

namespace Arm

def mode (s : Arm) : Mode := .ofBits (s.ctl.extractLsb' 0 5)

/-- The I bit: no IRQ is taken. -/
def irqOff (s : Arm) : Bool := s.ctl.getLsbD 7

def cpsr (s : Arm) : Word := s.flags ++ s.ctl

def read (s : Arm) (r : Reg) : Word := s.reg (r.phys s.mode)

def put (s : Arm) (p : PhysReg) (w : Word) : Arm := { s with reg := Function.update s.reg p w }

def write (s : Arm) (r : Reg) (w : Word) : Arm := s.put (r.phys s.mode) w

def setCtl (s : Arm) (c : BitVec 8) : Arm := { s with ctl := c }

def z (s : Arm) : Bool := s.flags.getLsbD 22

/-- Load consecutive words into registers of the bank of mode `m`. -/
def load (m : Mode) (b : Word) : List Reg → Arm → Arm
  | [], s => s
  | r::rs, s => load m (word b 1) rs (s.put (r.phys m) (s.mem b))

def store (s : Arm) (b : Word) (ws : List Word) : Arm := { s with mem := storeWords s.mem b ws }

/-- Exception entry: return address and status go to the bank of the new mode. -/
def take (s : Arm) (m : Mode) (ret : Word) : Arm :=
  { (s.put (.lr m) ret).put (.spsr m) s.cpsr with
    ctl := 1#1 ++ s.ctl.extractLsb' 6 1 ++ 0#1 ++ m.bits }

end Arm

/-- Instructions that fall through. `User` marks the transfers with a caret; the status
registers are written in their flag and control fields. -/
inductive Op where
  | mov (rd rm : Reg)
  | movImm (rd : Reg) (w : Word)
  | add (rd rn : Reg) (w : Word)
  | sub (rd rn : Reg) (w : Word)
  | moveq (rd rm : Reg)
  | cmp (rn : Reg) (w : Word)
  | stmda (rn : Reg) (rs : List Reg)
  | push (rs : List Reg)
  | pop (rs : List Reg)
  | stmfdUser (rn : Reg) (rs : List Reg)
  | ldmiaUser (rn : Reg) (rs : List Reg)
  | mrsCpsr (rd : Reg)
  | mrsSpsr (rd : Reg)
  | msrCpsr (ctl : BitVec 8)
  | msrSpsr (rn : Reg)

namespace Op

/-- The number of bytes that registers take in memory. -/
def size (rs : List Reg) : Word := BitVec.ofNat 32 (4*rs.length)

def exec (s : Arm) : Op → Arm
  | mov rd rm => s.write rd (s.read rm)
  | movImm rd w => s.write rd w
  | add rd rn w => s.write rd (s.read rn + w)
  | sub rd rn w => s.write rd (s.read rn - w)
  | moveq rd rm => if s.z then s.write rd (s.read rm) else s
  | cmp rn w =>
    let d := s.read rn - w
    let v := (s.read rn).msb != w.msb && (s.read rn).msb != d.msb
    { s with flags := BitVec.ofBool d.msb ++ BitVec.ofBool (d == 0) ++
        BitVec.ofBool (w ≤ s.read rn) ++ BitVec.ofBool v ++ s.flags.extractLsb' 0 20 }
  | stmda rn rs =>
    (s.store (s.read rn - size rs + 4) (rs.map s.read)).write rn (s.read rn - size rs)
  | push rs => (s.store (s.read .sp - size rs) (rs.map s.read)).write .sp (s.read .sp - size rs)
  | pop rs => (s.load s.mode (s.read .sp) rs).write .sp (s.read .sp + size rs)
  | stmfdUser rn rs => s.store (s.read rn - size rs) (rs.map fun r => s.reg (r.phys .usr))
  | ldmiaUser rn rs => s.load .usr (s.read rn) rs
  | mrsCpsr rd => s.write rd s.cpsr
  | mrsSpsr rd => s.write rd (s.reg (.spsr s.mode))
  | msrCpsr ctl => if s.mode = .usr then s else s.setCtl ctl
  | msrSpsr rn =>
    s.put (.spsr s.mode) ((s.read rn).extractLsb' 24 8 ++
      (s.reg (.spsr s.mode)).extractLsb' 8 16 ++ (s.read rn).extractLsb' 0 8)

end Op

inductive Instr (β : Type) where
  | op (o : Op)
  | b (l : β)
  | beq (l : β)
  | movsPcLr

section Rules
variable (s : Arm) (p q : PhysReg) (w : Word)

namespace Arm

@[simp] theorem put_reg_self : (s.put p w).reg p = w := Function.update_self ..

theorem put_reg : (s.put p w).reg q = if q = p then w else s.reg q := Function.update_apply ..

theorem put_reg_of_ne {p q : PhysReg} (h : q ≠ p) : (s.put p w).reg q = s.reg q :=
  Function.update_of_ne h ..

@[simp] theorem put_mem : (s.put p w).mem = s.mem := rfl
@[simp] theorem put_ctl : (s.put p w).ctl = s.ctl := rfl
@[simp] theorem put_flags : (s.put p w).flags = s.flags := rfl
@[simp] theorem put_mode : (s.put p w).mode = s.mode := rfl

variable {m : Mode} {b : Word} {rs : List Reg}

@[simp] theorem load_mem : (s.load m b rs).mem = s.mem := by
  induction rs generalizing s b with
  | nil => rfl
  | cons r rs ih => rw [load, ih, put_mem]

@[simp] theorem load_ctl : (s.load m b rs).ctl = s.ctl := by
  induction rs generalizing s b with
  | nil => rfl
  | cons r rs ih => rw [load, ih, put_ctl]

@[simp] theorem load_mode : (s.load m b rs).mode = s.mode := by rw [mode, mode, load_ctl]

/-- A register that is not loaded keeps its value. -/
theorem load_reg_of_not_mem (h : ∀ r ∈ rs, p ≠ r.phys m) : (s.load m b rs).reg p = s.reg p := by
  induction rs generalizing s b with
  | nil => rfl
  | cons r rs ih =>
    rw [load, ih _ fun r hr => h r (List.mem_cons_of_mem _ hr),
      put_reg_of_ne _ _ (h r (List.mem_cons_self ..))]

lemma phys_inj {r r' : Reg} (h : r.phys m = r'.phys m) : r = r' := by
  cases r <;> cases r' <;> simp_all [Reg.phys]

/-- Registers are loaded from consecutive words. -/
theorem load_reg {k : ℕ} {r : Reg} (hk : rs[k]? = some r) (hnd : rs.Nodup) :
    (s.load m b rs).reg (r.phys m) = s.mem (word b k) := by
  induction rs generalizing s b k with
  | nil => simp at hk
  | cons r' rs ih =>
    obtain ⟨hr,hnd⟩ := List.nodup_cons.mp hnd
    cases k with
    | zero =>
      obtain rfl : r' = r := by simpa using hk
      rw [load, load_reg_of_not_mem, put_reg_self, word_zero]
      exact fun r' hr' hc => hr (phys_inj hc ▸ hr')
    | succ k => rw [load, ih _ (by simpa using hk) hnd, word_word, put_mem, Nat.add_comm]

@[simp] theorem setCtl_reg (c : BitVec 8) : (s.setCtl c).reg = s.reg := rfl
@[simp] theorem setCtl_mem (c : BitVec 8) : (s.setCtl c).mem = s.mem := rfl
@[simp] theorem setCtl_mode (c : BitVec 8) :
    (s.setCtl c).mode = .ofBits (c.extractLsb' 0 5) := rfl

@[simp] theorem store_reg (ws : List Word) : (s.store b ws).reg = s.reg := rfl
@[simp] theorem store_mem (ws : List Word) : (s.store b ws).mem = storeWords s.mem b ws := rfl
@[simp] theorem store_mode (ws : List Word) : (s.store b ws).mode = s.mode := rfl
@[simp] theorem store_ctl (ws : List Word) : (s.store b ws).ctl = s.ctl := rfl
@[simp] theorem store_flags (ws : List Word) : (s.store b ws).flags = s.flags := rfl

end Arm

namespace Op

@[simp] theorem exec_cmp_reg (rn : Reg) : (exec s (cmp rn w)).reg = s.reg := rfl
@[simp] theorem exec_cmp_mem (rn : Reg) : (exec s (cmp rn w)).mem = s.mem := rfl
@[simp] theorem exec_cmp_mode (rn : Reg) : (exec s (cmp rn w)).mode = s.mode := rfl

variable {s} {m : Mode} {b : Word} (hm : s.mode = m)
include hm

/-! Instructions in a known mode. -/

theorem exec_mov (rd rm : Reg) :
    exec s (mov rd rm) = s.put (rd.phys m) (s.reg (rm.phys m)) := by subst hm; rfl

theorem exec_movImm (rd : Reg) : exec s (movImm rd w) = s.put (rd.phys m) w := by subst hm; rfl

theorem exec_add (rd rn : Reg) :
    exec s (.add rd rn w) = s.put (rd.phys m) (s.reg (rn.phys m) + w) := by subst hm; rfl

theorem exec_sub (rd rn : Reg) :
    exec s (.sub rd rn w) = s.put (rd.phys m) (s.reg (rn.phys m) - w) := by subst hm; rfl

theorem exec_pop (rs : List Reg) (hb : s.reg (.sp m) = b) :
    exec s (pop rs) = (s.load m b rs).put (.sp m) (b + size rs) := by
  subst hm hb
  rw [exec, Arm.write, Arm.load_mode]
  rfl

theorem exec_push (rs : List Reg) (hb : s.reg (.sp m) = b + size rs) :
    exec s (push rs) = (s.store b (rs.map fun r => s.reg (r.phys m))).put (.sp m) b := by
  subst hm
  have hsub : s.read .sp - size rs = b := by
    rw [Arm.read, Reg.phys, hb, BitVec.add_sub_cancel]
  rw [exec, hsub]
  rfl

theorem exec_stmfdUser (rn : Reg) (rs : List Reg) (hb : s.reg (rn.phys m) = b + size rs) :
    exec s (stmfdUser rn rs) = s.store b (rs.map fun r => s.reg (r.phys .usr)) := by
  subst hm
  rw [exec, Arm.read, hb, BitVec.add_sub_cancel]

theorem exec_ldmiaUser (rn : Reg) (rs : List Reg) :
    exec s (ldmiaUser rn rs) = s.load .usr (s.reg (rn.phys m)) rs := by subst hm; rfl

theorem exec_mrsCpsr (rd : Reg) : exec s (mrsCpsr rd) = s.put (rd.phys m) s.cpsr := by
  subst hm; rfl

theorem exec_mrsSpsr (rd : Reg) :
    exec s (mrsSpsr rd) = s.put (rd.phys m) (s.reg (.spsr m)) := by subst hm; rfl

theorem exec_msrCpsr (hpriv : m ≠ .usr) (c : BitVec 8) : exec s (msrCpsr c) = s.setCtl c := by
  rw [exec, if_neg (hm ▸ hpriv)]

theorem exec_msrSpsr (rn : Reg) : exec s (msrSpsr rn) =
    s.put (.spsr m) ((s.reg (rn.phys m)).extractLsb' 24 8 ++
      (s.reg (.spsr m)).extractLsb' 8 16 ++ (s.reg (rn.phys m)).extractLsb' 0 8) := by
  subst hm; rfl

theorem exec_cmp_z (rn : Reg) : (exec s (cmp rn w)).z = decide (s.reg (rn.phys m) = w) := by
  subst hm
  have hz : (exec s (cmp rn w)).z = (s.read rn - w == 0) := by
    simp only [exec, Arm.z, BitVec.getLsbD_append]
    simp
  have hsub : s.read rn - w = 0 ↔ s.reg (rn.phys s.mode) = w := by
    rw [Arm.read]
    constructor <;> intro h <;> bv_omega
  rw [hz, Bool.eq_iff_iff, beq_iff_eq, decide_eq_true_iff, hsub]

theorem exec_moveq (rd rm : Reg) :
    exec s (moveq rd rm) = if s.z then s.put (rd.phys m) (s.reg (rm.phys m)) else s := by
  subst hm; rfl

/-- The registers go to the block that ends at the address in `rn`. -/
theorem exec_stmda (rn : Reg) (rs : List Reg) (hb : s.reg (rn.phys m) + 4 = b + size rs) :
    exec s (stmda rn rs) =
      (s.store b (rs.map fun r => s.reg (r.phys m))).put (rn.phys m) (b - 4) := by
  subst hm
  have hread : s.read rn = b + size rs - 4 := by
    rw [← hb, BitVec.add_sub_cancel]
    rfl
  have hbase : s.read rn - size rs + 4 = b := by rw [hread]; bv_omega
  have hback : s.read rn - size rs = b - 4 := by rw [hread]; bv_omega
  rw [exec, hbase, hback]
  rfl

end Op
end Rules

namespace Instr
variable {β : Type}

/-- A straight piece of a routine. -/
def ops (os : List Op) : List (Instr β) := os.map op

/-- Run a routine: where it branches to, or nowhere when it returned from the exception. -/
def run : List (Instr β) → Arm → Arm × Option β
  | [], s => (s,none)
  | op o::is, s => run is (o.exec s)
  | b l::_, s => (s, some l)
  | beq l::is, s => if s.z then (s, some l) else run is s
  | movsPcLr::_, s =>
    ({ s with
        pc := s.read .lr
        flags := (s.reg (.spsr s.mode)).extractLsb' 8 24
        ctl := (s.reg (.spsr s.mode)).extractLsb' 0 8 }, none)

/-- A straight piece runs as a whole. -/
theorem run_ops (os : List Op) (is : List (Instr β)) (s : Arm) :
    run (ops os ++ is) s = run is (os.foldl Op.exec s) := by
  induction os generalizing s with
  | nil => rfl
  | cons o os ih => exact ih (o.exec s)

end Instr

end DistributedPis.Library
