import DistributedPis.Library.BitField
import DistributedPis.Library.Ring
import DistributedPis.Server.Gpio

/-! The pins of `lib/gpio.c`. Five registers hold the functions of the pins, three bits for each;
two more set and clear levels, and one reads them. Every call is about its own pin only. -/
namespace DistributedPis
open Library

/-- The function registers from `gpio_fsel0` on, and the levels that `gpio_set0` sets and
`gpio_clr0` clears, bit for bit. -/
structure GpioPins where
  fsel : ℕ → Word
  latch : Word

/-- `GPIO_FUNC_OUTPUT` -/
def gpioFuncOutput : ℕ := 1
/-- `GPIO_FUNC_INPUT` -/
def gpioFuncInput : ℕ := 0

/-- The test that all functions begin with; 47 is the pin of the internal led. -/
def noPin (pin : ℕ) : Bool := 32 ≤ pin ∧ pin ≠ 47

namespace GpioPins

def gpioSetFunction (pin function : ℕ) (g : GpioPins) : GpioPins :=
  if noPin pin then g
  else if 7 < function then g
  else
    let bits := g.fsel (pin/10)
    let offset := pin % 10 * 3
    let bits := bits &&& ~~~(0b111#32 <<< offset)
    let bits := bits ||| (BitVec.ofNat 32 function <<< offset)
    {g with fsel := Function.update g.fsel (pin/10) bits}

def gpioSetOutput (pin : ℕ) : GpioPins → GpioPins := gpioSetFunction pin gpioFuncOutput

def gpioSetInput (pin : ℕ) : GpioPins → GpioPins := gpioSetFunction pin gpioFuncInput

def gpioSetOn (pin : ℕ) (g : GpioPins) : Option GpioPins :=
  if noPin pin then some g
  else do
    let bits ← shl1 pin
    some {g with latch := g.latch ||| bits}

def gpioSetOff (pin : ℕ) (g : GpioPins) : Option GpioPins :=
  if noPin pin then some g
  else do
    let bits ← shl1 pin
    some {g with latch := g.latch &&& ~~~bits}

def gpioWrite (pin v : ℕ) (g : GpioPins) : Option GpioPins :=
  if noPin pin then some g
  else if v ≠ 0 then g.gpioSetOn pin else g.gpioSetOff pin

/-- The function of a pin. -/
def func (g : GpioPins) (pin : ℕ) : BitVec 3 := (g.fsel (pin/10)).extractLsb' (pin % 10 * 3) 3

/-- What `gpio_lev0` reads: an output has the level that was written, any other pin the one that it
gets from outside. -/
def levels (ext : ℕ → Bool) (g : GpioPins) : Word :=
  BitVec.ofFnLE fun i => if g.func i = 1 then g.latch.getLsbD i else ext i

def gpioRead (pin : ℕ) (ext : ℕ → Bool) (g : GpioPins) : Option ℤ :=
  if noPin pin then some (-1)
  else do
    let v := g.levels ext &&& (← shl1 pin)
    some (if v > 0 then 1 else 0)

end GpioPins

/-- The calls, a read with the levels from outside. -/
inductive PinCall
  | setFunction (pin function : ℕ)
  | setOutput (pin : ℕ)
  | setInput (pin : ℕ)
  | setOn (pin : ℕ)
  | setOff (pin : ℕ)
  | write (pin v : ℕ)
  | read (pin : ℕ) (ext : ℕ → Bool)

/-- A read has a result. -/
def GpioPins.call (g : GpioPins) : PinCall → Option (Option ℤ × GpioPins)
  | .setFunction pin function => some (none, g.gpioSetFunction pin function)
  | .setOutput pin => some (none, g.gpioSetOutput pin)
  | .setInput pin => some (none, g.gpioSetInput pin)
  | .setOn pin => (g.gpioSetOn pin).map fun g => (none, g)
  | .setOff pin => (g.gpioSetOff pin).map fun g => (none, g)
  | .write pin v => (g.gpioWrite pin v).map fun g => (none, g)
  | .read pin ext => (g.gpioRead pin ext).map fun r => (some r, g)

/-- What the pins are for: each has a function and a level of its own. -/
@[ext] structure Pins where
  func : ℕ → BitVec 3
  level : ℕ → Bool

namespace Pins

/-- The first 32 pins and the led have functions. -/
def setFunc (pin function : ℕ) (p : Pins) : Pins :=
  if (pin < 32 ∨ pin = 47) ∧ function < 8 then
    {p with func := Function.update p.func pin (BitVec.ofNat 3 function)}
  else p

/-- The first 32 pins have levels, and the led cannot be used. -/
def onLevel {α : Type} (pin : ℕ) (used : α) (other : α) : Option α :=
  if pin < 32 then some used else if pin = 47 then none else some other

def setLevel (pin : ℕ) (v : Bool) (p : Pins) : Option (Option ℤ × Pins) :=
  onLevel pin (none, {p with level := Function.update p.level pin v}) (none, p)

def read (pin : ℕ) (ext : ℕ → Bool) (p : Pins) : ℤ :=
  if (if p.func pin = 1 then p.level pin else ext pin) then 1 else 0

def call (p : Pins) : PinCall → Option (Option ℤ × Pins)
  | .setFunction pin function => some (none, p.setFunc pin function)
  | .setOutput pin => some (none, p.setFunc pin 1)
  | .setInput pin => some (none, p.setFunc pin 0)
  | .setOn pin => p.setLevel pin true
  | .setOff pin => p.setLevel pin false
  | .write pin v => p.setLevel pin (v ≠ 0)
  | .read pin ext => onLevel pin (some (p.read pin ext), p) (some (-1), p)

end Pins

namespace GpioPins
variable {g : GpioPins} {pin function v : ℕ} {ext : ℕ → Bool}

/-- The pins as the registers have them. -/
def view (g : GpioPins) : Pins := ⟨g.func, fun pin => g.latch.getLsbD pin⟩

lemma noPin_iff : noPin pin = true ↔ 32 ≤ pin ∧ pin ≠ 47 := by simp [noPin]

lemma bits_eq (w : Word) (o : ℕ) (h : function < 8) :
    (w &&& ~~~(0b111#32 <<< o)) ||| (BitVec.ofNat 32 function <<< o) =
      putField o (BitVec.ofNat 3 function) w := by
  have hones : (BitVec.allOnes 3).setWidth 32 = 0b111#32 := by decide
  have hfunc : (BitVec.ofNat 3 function).setWidth 32 = BitVec.ofNat 32 function := by
    apply BitVec.eq_of_toNat_eq
    simp only [BitVec.toNat_setWidth, BitVec.toNat_ofNat]
    omega
  rw [putField, hones, hfunc]

/-- Setting a function changes that of its own pin only. -/
theorem view_setFunction : (g.gpioSetFunction pin function).view = g.view.setFunc pin function := by
  unfold gpioSetFunction Pins.setFunc
  by_cases hpin : noPin pin = true
  · have hno := noPin_iff.mp hpin
    rw [if_pos hpin, if_neg (by omega)]
  by_cases hfunc : 7 < function
  · rw [if_neg hpin, if_pos hfunc, if_neg (by omega)]
  have hyes := noPin_iff.not.mp hpin
  rw [if_neg hpin, if_neg hfunc, if_pos (by omega)]
  dsimp only
  rw [bits_eq _ _ (by omega)]
  refine Pins.ext ?_ rfl
  funext i
  simp only [view, func]
  by_cases hi : i = pin
  · subst hi
    rw [Function.update_self, Function.update_self, field_putField (by omega)]
  · rw [Function.update_of_ne hi, func]
    by_cases hword : i/10 = pin/10
    · rw [hword, Function.update_self, field_putField_of_apart (by omega) (by omega)]
    · rw [Function.update_of_ne hword]

/-- The calls that shift a one to the bit of the pin: there is no such bit for the led. -/
lemma onPin {α β : Type} {other : α} {used : β} {f : Word → α} (out : α → β)
    (h : pin < 32 → out (f (BitVec.twoPow 32 pin)) = used) :
    (if noPin pin = true then some other else (shl1 pin).bind fun bits => some (f bits)).map out =
      Pins.onLevel pin used (out other) := by
  unfold Pins.onLevel
  by_cases hlt : pin < 32
  · have hno : ¬noPin pin = true := noPin_iff.not.mpr (by omega)
    rw [if_neg hno, if_pos hlt, shl1_eq hlt, Option.bind_some, Option.map_some, h hlt]
  rw [if_neg hlt]
  by_cases hled : pin = 47
  · subst hled
    rfl
  · rw [if_pos (noPin_iff.mpr (by omega)), if_neg hled, Option.map_some]

theorem view_setOn : (g.gpioSetOn pin).map (fun g => (none, g.view)) =
    g.view.setLevel pin true := by
  refine onPin _ fun hpin => congrArg (Prod.mk none) (Pins.ext rfl ?_)
  funext i
  by_cases hi : i = pin
  · subst hi
    simp [view, hpin]
  · simp [view, hi, Ne.symm hi]

theorem view_setOff : (g.gpioSetOff pin).map (fun g => (none, g.view)) =
    g.view.setLevel pin false := by
  refine onPin _ fun hpin => congrArg (Prod.mk none) (Pins.ext rfl ?_)
  funext i
  by_cases hi : i = pin
  · subst hi
    simp [view, hpin]
  · have hkeep : g.latch.getLsbD i = true → i < 32 := BitVec.lt_of_getLsbD
    simpa [view, hi, Ne.symm hi] using hkeep

/-- Writing a level is setting or clearing it, with the test of the pin made twice. -/
lemma gpioWrite_eq : g.gpioWrite pin v = if v ≠ 0 then g.gpioSetOn pin else g.gpioSetOff pin := by
  unfold gpioWrite
  by_cases hpin : noPin pin = true
  · rw [if_pos hpin, gpioSetOn, gpioSetOff, if_pos hpin, if_pos hpin, ite_self]
  · rw [if_neg hpin]

theorem view_write : (g.gpioWrite pin v).map (fun g => (none, g.view)) =
    g.view.setLevel pin (v ≠ 0) := by
  rw [gpioWrite_eq]
  by_cases hv : v ≠ 0
  · rw [if_pos hv, view_setOn, decide_eq_true hv]
  · rw [if_neg hv, view_setOff, decide_eq_false hv]

lemma levels_getLsbD (h : pin < 32) : (g.levels ext).getLsbD pin =
    if g.func pin = 1 then g.latch.getLsbD pin else ext pin := by
  rw [levels, BitVec.getLsbD_ofFnLE, dif_pos h]

theorem read_view : (g.gpioRead pin ext).map (fun r => (some r, g.view)) =
    Pins.onLevel pin (some (g.view.read pin ext), g.view) (some (-1), g.view) := by
  refine onPin (fun r => (some r, g.view)) fun hpin => ?_
  have hbit : (g.levels ext &&& BitVec.twoPow 32 pin > 0) ↔
      (if g.func pin = 1 then g.latch.getLsbD pin else ext pin) = true := by
    refine (and_twoPow_pos hpin).trans ?_
    rw [mem_pending, levels_getLsbD hpin]
  refine congrArg (fun z : ℤ => (some z, g.view)) ?_
  by_cases hb : (if g.func pin = 1 then g.latch.getLsbD pin else ext pin) = true
  · rw [if_pos (hbit.mpr hb)]
    exact (if_pos hb).symm
  · rw [if_neg (hbit.not.mpr hb)]
    exact (if_neg hb).symm

/-- Every call does to the registers what it is for, and gives the same answer. -/
theorem call_view (g : GpioPins) (c : PinCall) :
    (g.call c).map (fun r => (r.1, r.2.view)) = g.view.call c := by
  cases c with
  | setFunction pin function => exact congrArg (fun p => some (none, p)) view_setFunction
  | setOutput pin => exact congrArg (fun p => some (none, p)) view_setFunction
  | setInput pin => exact congrArg (fun p => some (none, p)) view_setFunction
  | setOn pin =>
    rw [Pins.call, ← view_setOn, call, Option.map_map]
    rfl
  | setOff pin =>
    rw [Pins.call, ← view_setOff, call, Option.map_map]
    rfl
  | write pin v =>
    rw [Pins.call, ← view_write, call, Option.map_map]
    rfl
  | read pin ext =>
    rw [Pins.call, ← read_view, call, Option.map_map]
    rfl

end GpioPins

/-- The driver keeps the pins apart: in any sequence of calls every pin has the function and the
level that it was given last, an output is read as it was written and another pin as it is driven,
and there is a result unless the level of the led is asked for. -/
theorem gpioPins_refine (g : GpioPins) (cs : List PinCall) :
    (answersM GpioPins.call g cs).map (fun r => (r.1, r.2.view)) =
      answersM Pins.call g.view cs :=
  answersM_map GpioPins.call_view g cs

end DistributedPis
