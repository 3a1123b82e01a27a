import DistributedPis.Library.Flags
import DistributedPis.Library.Run
import DistributedPis.Library.Words

/-! The pin events of `lib/gpio.c`. An edge on a watched pin sets the pin's bit of the event
register, and a write to that register clears the bits that are one in the written word. Edges
arrive at any time, also between the read and the write of `gpio_event_clear`. -/
namespace DistributedPis
open Library

/-- The registers that `gpio_rise_edge0`, `gpio_fall_edge0` and `gpio_event_detect0` name. -/
structure Gpio where
  riseEdge : Word
  fallEdge : Word
  eventDetect : Word
  deriving DecidableEq

/-- A change of the level of a pin. -/
structure Edge where
  pin : ℕ
  rising : Bool
  deriving DecidableEq

/-- `1 << pin`, which has no value from 32 on. -/
def shl1 (pin : ℕ) : Option Word := if pin < 32 then some (1#32 <<< pin) else none

theorem shl1_eq {pin : ℕ} (h : pin < 32) : shl1 pin = some (BitVec.twoPow 32 pin) := by
  rw [shl1, if_pos h, BitVec.twoPow_eq]

namespace Gpio

def watches (g : Gpio) (e : Edge) : Bool :=
  if e.rising then g.riseEdge.getLsbD e.pin else g.fallEdge.getLsbD e.pin

/-- What the hardware does at an edge. -/
def edge (g : Gpio) (e : Edge) : Gpio :=
  if g.watches e then {g with eventDetect := raise g.eventDetect (BitVec.twoPow 32 e.pin)} else g

def edges (g : Gpio) (es : List Edge) : Gpio := es.foldl edge g

/-- `PUT32(gpio_event_detect0, bits)`. -/
def putEventDetect (g : Gpio) (bits : Word) : Gpio :=
  {g with eventDetect := acknowledge g.eventDetect bits}

/-- Add the bit of a pin to the register that `bits` reads and `put` writes. -/
def watch (bits : Gpio → Word) (put : Gpio → Word → Gpio) (pin : ℕ) (g : Gpio) : Option Gpio :=
  -- 47 passes the check: it is the pin of the internal led
  if 32 ≤ pin ∧ pin ≠ 47 then some g
  else do
    let bits := bits g ||| (← shl1 pin)
    some (put g bits)

def gpioIntRisingEdge : ℕ → Gpio → Option Gpio :=
  watch riseEdge fun g bits => {g with riseEdge := bits}

def gpioIntFallingEdge : ℕ → Gpio → Option Gpio :=
  watch fallEdge fun g bits => {g with fallEdge := bits}

def gpioEventDetected (pin : ℕ) (g : Gpio) : Option ℤ :=
  if 32 ≤ pin ∧ pin ≠ 47 then some (-1)
  else do
    let bits := g.eventDetect &&& (← shl1 pin)
    some (if bits > 0 then 1 else 0)

/-- `gpio_event_clear`, with the edges that arrive between its read and its write. -/
def gpioEventClear (pin : ℕ) (during : List Edge) (g : Gpio) : Option Gpio :=
  if 32 ≤ pin ∧ pin ≠ 47 then some (g.edges during)
  else do
    let bits := g.eventDetect ||| (← shl1 pin)
    let g := g.edges during
    some (g.putEventDetect bits)

end Gpio

/-- `gpio_event_clear` as `project/sw-uart/gpio-int.c` has it. -/
def GpioInt.gpioEventClear (pin : ℕ) (during : List Edge) (g : Gpio) : Option Gpio :=
  if 32 ≤ pin then some (g.edges during)
  else do
    let g := g.edges during
    some (g.putEventDetect (← shl1 pin))

/-- An edge, or a call of the program. -/
inductive GpioEvent
  | edge (e : Edge)
  | gpioIntRisingEdge (pin : ℕ)
  | gpioIntFallingEdge (pin : ℕ)
  | gpioEventDetected (pin : ℕ)
  | gpioEventClear (pin : ℕ) (during : List Edge)

/-- One of the two versions of `gpio_event_clear`. -/
abbrev EventClear := ℕ → List Edge → Gpio → Option Gpio

namespace Gpio

def step (clear : EventClear) (g : Gpio) : GpioEvent → Option Gpio
  | .edge e => some (g.edge e)
  | .gpioIntRisingEdge pin => g.gpioIntRisingEdge pin
  | .gpioIntFallingEdge pin => g.gpioIntFallingEdge pin
  | .gpioEventDetected pin => (g.gpioEventDetected pin).map fun _ => g
  | .gpioEventClear pin during => clear pin during g

/-- The pins of the edges that are watched for. -/
def arrived (g : Gpio) (es : List Edge) : Finset ℕ := ((es.filter g.watches).map Edge.pin).toFinset

/-- The pins with an event that is not cleared yet: an edge adds its pin, and a call of
`gpio_event_clear` takes out the pin it is called for, the edges on it during the call
included. -/
def owed (g : Gpio) (due : Finset ℕ) : GpioEvent → Finset ℕ
  | .edge e => due ∪ g.arrived [e]
  | .gpioEventClear pin during => (due ∪ g.arrived during).erase pin
  | _ => due

end Gpio

/-- The registers beside the pins that have an event. -/
structure Traced where
  gpio : Gpio
  due : Finset ℕ

namespace Traced

def start (g : Gpio) : Traced := ⟨g, pending g.eventDetect⟩

/-- The register holds no event that is cleared. -/
def Within (t : Traced) : Prop := pending t.gpio.eventDetect ⊆ t.due

def step (clear : EventClear) (t : Traced) (a : GpioEvent) : Option Traced :=
  (t.gpio.step clear a).map fun g => ⟨g, t.gpio.owed t.due a⟩

end Traced

/-- After every step of the run `gpio_event_detected` reports all events that are not cleared. -/
def NoEventLost (clear : EventClear) (g : Gpio) (es : List GpioEvent) : Prop :=
  ∀ ys zs, es = ys ++ zs → ∀ t, ys.foldlM (Traced.step clear) (.start g) = some t →
    ∀ p ∈ t.due, t.gpio.gpioEventDetected p = some 1

/-- When `gpio_event_clear` is called for a pin, no other pin has an event. -/
def ClearsAlone (g : Gpio) : GpioEvent → Prop
  | .gpioEventClear pin _ => pin < 32 → pending g.eventDetect ⊆ {pin}
  | _ => True

namespace Gpio
variable {g g' : Gpio} {e : Edge} {es : List Edge} {a : GpioEvent} {pin : ℕ} {clear : EventClear}

theorem pin_lt (h : pin ∈ pending g.eventDetect) : pin < 32 :=
  BitVec.lt_of_getLsbD (mem_pending.mp h)

theorem watches_lt (h : g.watches e = true) : e.pin < 32 := by
  unfold watches at h
  split at h <;> exact BitVec.lt_of_getLsbD h

@[simp] theorem edge_watches (g : Gpio) (e : Edge) : (g.edge e).watches = g.watches := by
  funext x
  unfold edge
  split <;> rfl

@[simp] theorem edge_arrived (g : Gpio) (e : Edge) (es : List Edge) :
    (g.edge e).arrived es = g.arrived es := by
  rw [arrived, edge_watches, arrived]

theorem arrived_cons (g : Gpio) (e : Edge) (es : List Edge) :
    g.arrived (e::es) = g.arrived [e] ∪ g.arrived es := by
  by_cases h : g.watches e = true <;> simp [arrived, h]

/-- An edge adds its pin if it is watched for. -/
theorem edge_pending (g : Gpio) (e : Edge) :
    pending (g.edge e).eventDetect = pending g.eventDetect ∪ g.arrived [e] := by
  unfold edge
  split
  · rename_i h
    rw [pending_raise, pending_twoPow (watches_lt h)]
    simp [arrived, h]
  · rename_i h
    simp [arrived, h]

theorem edges_pending (g : Gpio) (es : List Edge) :
    pending (g.edges es).eventDetect = pending g.eventDetect ∪ g.arrived es := by
  induction es generalizing g with
  | nil => simp [edges, arrived]
  | cons e es ih =>
    rw [edges, List.foldl_cons]
    have htail := ih (g.edge e)
    rw [edges] at htail
    rw [htail, edge_pending, edge_arrived, Finset.union_assoc, ← arrived_cons]

theorem watch_eventDetect {bits : Gpio → Word} {put : Gpio → Word → Gpio}
    (h : g.watch bits put pin = some g')
    (hput : ∀ g bits, (put g bits).eventDetect = g.eventDetect) :
    g'.eventDetect = g.eventDetect := by
  unfold watch at h
  split at h
  · cases h
    rfl
  · obtain ⟨bit,-,h⟩ := Option.bind_eq_some_iff.mp h
    cases h
    exact hput g _

/-- `gpio_event_detected` reads the bit of the pin. -/
theorem gpioEventDetected_eq_one :
    g.gpioEventDetected pin = some 1 ↔ pin ∈ pending g.eventDetect := by
  by_cases hpin : pin < 32
  · rw [gpioEventDetected, if_neg (by omega), shl1_eq hpin]
    simp only [Option.bind_eq_bind, Option.bind_some, Option.some_inj, gt_iff_lt]
    rw [← and_twoPow_pos hpin]
    split <;> simp_all
  · have hnot : pin ∉ pending g.eventDetect := fun h => hpin (pin_lt h)
    simp only [hnot, iff_false]
    rw [gpioEventDetected, shl1, if_neg hpin]
    split <;> simp

/-- `gpio_event_clear` takes out the pin it is called for, and every other one that it reads. -/
theorem gpioEventClear_pending {during : List Edge} (hpin : pin < 32)
    (h : g.gpioEventClear pin during = some g') :
    pending g'.eventDetect =
      (pending g.eventDetect ∪ g.arrived during) \ insert pin (pending g.eventDetect) := by
  rw [gpioEventClear, if_neg (by omega), shl1_eq hpin] at h
  cases h
  simp only [putEventDetect, pending_acknowledge, edges_pending]
  rw [← raise, pending_raise_twoPow hpin]

theorem gpioEventClear_isSome (g : Gpio) (hpin : pin < 32) (during : List Edge) :
    ∃ g', g.gpioEventClear pin during = some g' := by
  rw [gpioEventClear, if_neg (by omega), shl1_eq hpin]
  exact ⟨_,rfl⟩

theorem edges_erase {during : List Edge} (hpin : ¬ pin < 32) :
    pending (g.edges during).eventDetect =
      (pending g.eventDetect ∪ g.arrived during).erase pin := by
  rw [← edges_pending, Finset.erase_eq_of_notMem]
  exact fun h => hpin (pin_lt h)

theorem gpioEventClear_ge {during : List Edge} (hpin : ¬ pin < 32)
    (h : g.gpioEventClear pin during = some g') : g' = g.edges during := by
  rw [gpioEventClear, shl1, if_neg hpin] at h
  split at h
  · cases h
    rfl
  · cases h

/-- It never takes out too little. -/
theorem gpioEventClear_subset {during : List Edge} (h : g.gpioEventClear pin during = some g') :
    pending g'.eventDetect ⊆ (pending g.eventDetect ∪ g.arrived during).erase pin := by
  by_cases hpin : pin < 32
  · rw [gpioEventClear_pending hpin h, ← Finset.sdiff_singleton_eq_erase]
    exact Finset.sdiff_subset_sdiff Finset.Subset.rfl (by simp)
  · rw [gpioEventClear_ge hpin h, edges_erase hpin]

/-- Where the pin is the only one with an event, it takes out no other. -/
theorem gpioEventClear_alone {during : List Edge} (hone : pin < 32 → pending g.eventDetect ⊆ {pin})
    (h : g.gpioEventClear pin during = some g') :
    pending g'.eventDetect = (pending g.eventDetect ∪ g.arrived during).erase pin := by
  by_cases hpin : pin < 32
  · have hinsert : insert pin (pending g.eventDetect) = {pin} := by
      rw [Finset.insert_eq, Finset.union_eq_left]
      exact hone hpin
    rw [gpioEventClear_pending hpin h, hinsert, Finset.sdiff_singleton_eq_erase]
  · rw [gpioEventClear_ge hpin h, edges_erase hpin]

/-- Only a call of `gpio_event_clear` clears. -/
theorem step_pending (h : g.step clear a = some g') :
    pending g'.eventDetect = g.owed (pending g.eventDetect) a ∨
      ∃ pin during, a = .gpioEventClear pin during ∧ clear pin during g = some g' := by
  cases a with
  | edge e =>
    cases h
    exact Or.inl (edge_pending g e)
  | gpioIntRisingEdge pin =>
    rw [step, gpioIntRisingEdge] at h
    exact Or.inl (congrArg pending (watch_eventDetect h fun _ _ => rfl))
  | gpioIntFallingEdge pin =>
    rw [step, gpioIntFallingEdge] at h
    exact Or.inl (congrArg pending (watch_eventDetect h fun _ _ => rfl))
  | gpioEventDetected pin =>
    obtain ⟨v,-,hv⟩ := Option.map_eq_some_iff.mp h
    exact Or.inl (hv ▸ rfl)
  | gpioEventClear pin during => exact Or.inr ⟨pin,during,rfl,h⟩

theorem owed_mono {d d' : Finset ℕ} (h : d ⊆ d') (a : GpioEvent) : g.owed d a ⊆ g.owed d' a := by
  cases a with
  | edge e => exact Finset.union_subset_union h Finset.Subset.rfl
  | gpioEventClear pin during =>
    exact Finset.erase_subset_erase pin (Finset.union_subset_union h Finset.Subset.rfl)
  | _ => exact h

end Gpio

/-- The call clears the event of its own pin and no other one. -/
def ClearsOwn (clear : EventClear) (g : Gpio) (a : GpioEvent) : Prop :=
  ∀ pin during g', a = .gpioEventClear pin during → clear pin during g = some g' →
    pending g'.eventDetect = (pending g.eventDetect ∪ g.arrived during).erase pin

theorem clearsOwn_of_alone {g : Gpio} {a : GpioEvent} (h : ClearsAlone g a) :
    ClearsOwn Gpio.gpioEventClear g a := by
  rintro pin during g' rfl hclear
  exact Gpio.gpioEventClear_alone h hclear

namespace Traced
variable {t u : Traced} {a : GpioEvent} {clear : EventClear}

theorem step_gpio (t : Traced) (a : GpioEvent) :
    (t.step clear a).map Traced.gpio = t.gpio.step clear a := by
  rw [Traced.step, Option.map_map]
  exact congrFun Option.map_id _

theorem start_subset (g : Gpio) : (start g).Within := Finset.Subset.refl _

theorem step_subset (hle : t.Within) (h : t.step Gpio.gpioEventClear a = some u) : u.Within := by
  obtain ⟨g,hg,rfl⟩ := Option.map_eq_some_iff.mp h
  refine Finset.Subset.trans ?_ (Gpio.owed_mono hle a)
  rcases Gpio.step_pending hg with heq | ⟨pin,during,rfl,hclear⟩
  · exact heq.subset
  · exact Gpio.gpioEventClear_subset hclear

/-- The register holds all events that are due as long as no call clears more than its own. -/
theorem step_eq (heq : pending t.gpio.eventDetect = t.due) (hown : ClearsOwn clear t.gpio a)
    (h : t.step clear a = some u) : pending u.gpio.eventDetect = u.due := by
  obtain ⟨g,hg,rfl⟩ := Option.map_eq_some_iff.mp h
  rw [← heq]
  rcases Gpio.step_pending hg with hkept | ⟨pin,during,rfl,hclear⟩
  · exact hkept
  · exact hown pin during g rfl hclear

theorem run_subset {g : Gpio} {es : List GpioEvent}
    (h : es.foldlM (step Gpio.gpioEventClear) (start g) = some t) : t.Within :=
  foldlM_invariant (fun _ _ _ hle hu => step_subset hle hu) (start_subset g) h

theorem run_eq {g : Gpio} {es : List GpioEvent}
    (hown : Meets (step clear) (fun t a => ClearsOwn clear t.gpio a) (start g) es)
    (h : es.foldlM (step clear) (start g) = some t) : pending t.gpio.eventDetect = t.due := by
  refine foldlM_invariant_meets (P := fun t => pending t.gpio.eventDetect = t.due) ?_ ?_ hown h
  · exact fun t a u heq hstep hu => step_eq heq hstep hu
  · rfl

end Traced

/-- No event is lost in a run whose calls clear only their own. -/
theorem noEventLost_of_own {clear : EventClear} {g : Gpio} {es : List GpioEvent}
    (h : Meets (Gpio.step clear) (ClearsOwn clear) g es) : NoEventLost clear g es := by
  rintro ys zs rfl t ht p hp
  have hys := (meets_map (x := Traced.start g) Traced.gpio Traced.step_gpio).mpr h.of_append
  rw [Gpio.gpioEventDetected_eq_one, Traced.run_eq hys ht]
  exact hp

/-- The run loses no event exactly when every call of `gpio_event_clear` finds no other pin with
an event. -/
theorem noEventLost_iff (g : Gpio) (es : List GpioEvent) :
    NoEventLost Gpio.gpioEventClear g es ↔
      Meets (Gpio.step Gpio.gpioEventClear) ClearsAlone g es := by
  constructor
  · intro hkept
    refine (meets_map (x := Traced.start g) Traced.gpio Traced.step_gpio).mp ?_
    rw [meets_iff_splits]
    rintro ys x zs rfl t ht
    have hle := Traced.run_subset ht
    cases x with
    | gpioEventClear pin during =>
      intro hpin
      refine Finset.subset_iff.mpr fun q hq => ?_
      by_contra hne
      rw [Finset.mem_singleton] at hne
      obtain ⟨g',hclear⟩ := Gpio.gpioEventClear_isSome t.gpio hpin during
      -- the event of `q` is due before the call and after it, and the call takes it out
      have hdue : q ∈ t.gpio.owed t.due (.gpioEventClear pin during) :=
        Finset.mem_erase_of_ne_of_mem hne (Finset.mem_union_left _ (hle hq))
      have hrun : (ys ++ [GpioEvent.gpioEventClear pin during]).foldlM
          (Traced.step Gpio.gpioEventClear) (.start g) =
            some ⟨g', t.gpio.owed t.due (.gpioEventClear pin during)⟩ := by
        rw [List.foldlM_append, ht]
        simp [Traced.step, Gpio.step, hclear]
      have hread := hkept _ zs (by simp) _ hrun q hdue
      rw [Gpio.gpioEventDetected_eq_one, Gpio.gpioEventClear_pending hpin hclear] at hread
      exact (Finset.mem_sdiff.mp hread).2 (Finset.mem_insert_of_mem hq)
    | _ => trivial
  · exact fun h => noEventLost_of_own (h.mono fun _ _ => clearsOwn_of_alone)

def bothRise : List GpioEvent :=
  [.gpioIntRisingEdge 20, .gpioIntRisingEdge 21, .edge ⟨20,true⟩, .edge ⟨21,true⟩,
    .gpioEventClear 20 []]

/-- The call for one of two pins takes out the event of the other one. -/
theorem bothRise_lost : ¬ NoEventLost Gpio.gpioEventClear ⟨0,0,0⟩ bothRise := by
  intro h
  have hread := h bothRise [] (by simp) _ rfl 21 (by decide)
  revert hread
  decide

/-- `gpio-int.c` writes the bit of the pin alone, and so loses no event in any run. -/
theorem GpioInt.noEventLost (g : Gpio) (es : List GpioEvent) :
    NoEventLost GpioInt.gpioEventClear g es := by
  refine noEventLost_of_own (meets_of_forall fun g a => ?_)
  rintro pin during g' rfl h
  by_cases hpin : pin < 32
  · rw [GpioInt.gpioEventClear, if_neg (by omega), shl1_eq hpin] at h
    cases h
    rw [Gpio.putEventDetect, pending_acknowledge_twoPow hpin, Gpio.edges_pending]
  · rw [GpioInt.gpioEventClear, if_pos (by omega)] at h
    cases h
    exact Gpio.edges_erase hpin

end DistributedPis
