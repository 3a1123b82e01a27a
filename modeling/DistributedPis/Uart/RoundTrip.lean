import DistributedPis.Uart.Frame
import DistributedPis.Library.Run

/-! Bytes over the software UART. The sender and the receiver call `sw_uart_put8` and
`sw_uart_get8` again and again, with any pauses. -/
namespace DistributedPis
open Library

/-- When the line falls in a frame. -/
def startBit (f : List (ℕ × Bool)) : ℕ := ((f.find? fun w => !w.2).map Prod.fst).getD 0

/-- The frames of the bytes, from `t` on. -/
inductive FramesSent (d cpb : ℕ) : ℕ → List UInt8 → List (List (ℕ × Bool)) → Prop
  | nil (t : ℕ) : FramesSent d cpb t [] []
  | cons {t t' u : ℕ} {w : ℕ → ℕ} {c : UInt8} {cs : List UInt8} {fs : List (List (ℕ × Bool))}
    (times : FrameTimes d cpb t t' u w) (rest : FramesSent d cpb t' cs fs) :
    FramesSent d cpb t (c::cs) (((u,true) :: changes w (frameBit c) 10) :: fs)

section FramesSent
variable {d t : ℕ} {cs : List UInt8} {fs : List (List (ℕ × Bool))}

theorem startBit_frame {u : ℕ} {w : ℕ → ℕ} {c : UInt8} :
    startBit ((u,true) :: changes w (frameBit c) 10) = w 0 := rfl

/-- Nothing is written before the first frame. -/
theorem FramesSent.later {cpb : ℕ} (h : FramesSent d cpb t cs fs) (hslow : 32*d ≤ cpb)
    (hd : 0 < d) :
    ∀ y ∈ fs.flatten, t ≤ y.1 := by
  induction h with
  | nil => exact fun y hy => absurd hy List.not_mem_nil
  | cons htimes _ ih =>
    intro y hy
    rw [List.flatten_cons] at hy
    rcases List.mem_append.mp hy with hy | hy
    · exact (htimes.mem hslow hd hy).1
    · have hend := htimes.ends
      have hlast := htimes.mem (c := 0) hslow hd (List.mem_cons_self ..)
      have hle := ih y hy
      omega

end FramesSent

namespace Side
variable {side : Side} {line : ℕ → Bool} {d fuel : ℕ} {cyclePerBit : Word} {s : Timed}

/-- Calls of `sw_uart_put8`, each with the changes it makes. -/
def sendAll (side : Side) (fuel : ℕ) (cyclePerBit : Word) :
    List UInt8 → Timed → Option (List (List (ℕ × Bool)))
  | [], _ => some []
  | c::cs, s => do
    let s ← (side.hardware fun _ => true).swUartPut8 fuel cyclePerBit c
      {side.wait s with writes := []}
    let fs ← sendAll side fuel cyclePerBit cs s
    some (s.writes::fs)

/-- The next call of `sw_uart_get8`. -/
def receive (side : Side) (line : ℕ → Bool) (fuel : ℕ) (cyclePerBit : Word) (s : Timed) :
    Option (ℕ × Timed) := (side.hardware line).swUartGet8 fuel cyclePerBit (side.wait s)

/-- That many calls of `sw_uart_get8`, with what they return. -/
def receiveAll (side : Side) (line : ℕ → Bool) (fuel : ℕ) (cyclePerBit : Word) :
    ℕ → Timed → Option (List ℕ)
  | 0, _ => some []
  | n+1, s => do
    let (c,s) ← receive side line fuel cyclePerBit s
    let cs ← receiveAll side line fuel cyclePerBit n s
    some (c::cs)

/-- Every call meets a condition on the state before it and on the start bit of its frame. -/
def MeetsStarts (side : Side) (line : ℕ → Bool) (fuel : ℕ) (cyclePerBit : Word)
    (C : Timed → ℕ → Prop) : Timed → List ℕ → Prop :=
  Meets (fun s _ => (side.receive line fuel cyclePerBit s).map Prod.snd) C

/-- The call starts before the line falls. -/
def EntersBefore (side : Side) (s : Timed) (t : ℕ) : Prop := (side.wait s).now < t

/-- The first read of the call takes effect before the line falls. -/
def ReadsBefore (side : Side) (s : Timed) (t : ℕ) : Prop := side.effect (side.wait s) < t

instance (side : Side) (s : Timed) (t : ℕ) : Decidable (side.EntersBefore s t) :=
  inferInstanceAs (Decidable (_ < _))

instance (side : Side) (s : Timed) (t : ℕ) : Decidable (side.ReadsBefore s t) :=
  inferInstanceAs (Decidable (_ < _))

instance (side : Side) (line : ℕ → Bool) (fuel : ℕ) (cyclePerBit : Word)
    (C : Timed → ℕ → Prop) [∀ s t, Decidable (C s t)] (s : Timed) (ts : List ℕ) :
    Decidable (side.MeetsStarts line fuel cyclePerBit C s ts) :=
  inferInstanceAs (Decidable (Meets _ _ _ _))

theorem Within.sendAll (h : side.Within d) (hpace : Paced d cyclePerBit)
    (hfuel : cyclePerBit.toNat < fuel) (cs : List UInt8) (s : Timed) :
    ∃ fs, side.sendAll fuel cyclePerBit cs s = some fs ∧
      FramesSent d cyclePerBit.toNat s.now cs fs := by
  induction cs generalizing s with
  | nil => exact ⟨[], rfl, .nil _⟩
  | cons c cs ih =>
    obtain ⟨u,w,s',hput,hwrites,htimes⟩ := h.put8 (fun _ => true) hpace hfuel c
      {side.wait s with writes := []}
    obtain ⟨fs,hfs,hsent⟩ := ih s'
    have hbegins : s.now ≤ u := (Nat.le_add_right ..).trans htimes.begins
    refine ⟨_, ?_, .cons {htimes with begins := hbegins} hsent⟩
    rw [Side.sendAll, hput, Option.bind_eq_bind, Option.bind_some, hfs]
    rw [Option.bind_eq_bind, Option.bind_some, hwrites]
    rfl


theorem Within.pos (h : side.Within d) : 0 < d := by
  have hcycles := h 0
  simp only [Latency.cycles] at hcycles
  omega

/-- Call by call, the receiver reads the frames. -/
theorem Within.receiveAll {t : ℕ} {cs : List UInt8} {fs : List (List (ℕ × Bool))}
    (h : side.Within d) (hpace : Paced d cyclePerBit) (hfuel : cyclePerBit.toNat < fuel)
    (hsent : FramesSent d cyclePerBit.toNat t cs fs) (hwait : ∀ f ∈ fs, startBit f < fuel)
    (hline : ∀ x, s.now ≤ x → line x = signal true fs.flatten x)
    (hready : side.MeetsStarts line fuel cyclePerBit side.ReadsBefore s (fs.map startBit)) :
    side.receiveAll line fuel cyclePerBit cs.length s = some (cs.map UInt8.toNat) := by
  have hslow := hpace.slow
  have hd := h.pos
  induction hsent generalizing s with
  | nil => rfl
  | @cons t t' u w c cs fs htimes hrest ih =>
    obtain ⟨hfirst,hnext⟩ := hready
    obtain ⟨hf,hwait'⟩ := List.forall_mem_cons.mp hwait
    rw [startBit_frame] at hf hfirst
    have hnow : s.now ≤ (side.wait s).now := Nat.le_add_right ..
    obtain ⟨hlo,_⟩ := h.tick (side.wait s)
    have hbefore : (side.wait s).now < w 0 := hlo.trans_lt hfirst
    have hlater : ∀ y ∈ fs.flatten, w 9 < y.1 := fun y hy =>
      htimes.ends.trans_le (hrest.later hslow hd y hy)
    have hcells : Cells line (side.wait s).now c w :=
      htimes.cells hslow hd hlater hbefore.le fun x hx => hline x (hnow.trans hx)
    obtain ⟨s',hget,hafter⟩ := h.get8 hpace hfuel hf htimes hcells hfirst
    have hlast := htimes.lt hslow hd (j := 0) (k := 9) (by omega) le_rfl
    have hline' : ∀ x, s'.now ≤ x → line x = signal true fs.flatten x := by
      intro x hx
      rw [hline x (by omega), List.flatten_cons, signal_behind (hafter.trans hx)]
    have hreceive : side.receive line fuel cyclePerBit s = some (c.toNat, s') := hget
    have hrest' := ih hwait' hline' (hnext s' (congrArg (Option.map Prod.snd) hreceive))
    simp only [List.length_cons, Side.receiveAll, hreceive, hrest', Option.bind_eq_bind,
      Option.bind_some]
    rfl

end Side

/-- Bytes that are sent with `sw_uart_put8` are read by `sw_uart_get8`, in order, when each call's
first read takes effect before its start bit falls. -/
theorem uart_round_trip {d : ℕ} {cyclePerBit : Word} (hpace : Paced d cyclePerBit)
    {tx rx : Side} (htx : tx.Within d) (hrx : rx.Within d) (bytes : List UInt8) (s r : Timed)
    {fuel : ℕ} (hfuel : cyclePerBit.toNat < fuel) :
    ∃ frames, tx.sendAll fuel cyclePerBit bytes s = some frames ∧
      ∀ fuel, cyclePerBit.toNat < fuel → (∀ f ∈ frames, startBit f < fuel) →
        rx.MeetsStarts (signal true frames.flatten) fuel cyclePerBit rx.ReadsBefore r
          (frames.map startBit) →
        rx.receiveAll (signal true frames.flatten) fuel cyclePerBit bytes.length r =
          some (bytes.map UInt8.toNat) := by
  obtain ⟨frames,hframes,hsent⟩ := htx.sendAll hpace hfuel bytes s
  refine ⟨frames, hframes, fun fuel hfuel hwait hready => ?_⟩
  exact hrx.receiveAll hpace hfuel hsent hwait (fun _ _ => rfl) hready

/-- A side that takes as long for each of its operations. -/
def steady (l : Latency) (counter pause : ℕ) : Side :=
  ⟨fun _ => l, counter, fun _ => 0, fun _ => pause⟩

theorem steady_within {l : Latency} {d : ℕ} (h : l.cycles ≤ d) (counter pause : ℕ) :
    (steady l counter pause).Within d := fun _ => h

/-- Two bytes, while the sender's counter wraps inside the first frame. -/
theorem uart_round_trip_wrap :
    ∃ frames, (steady ⟨0,0⟩ (2^32-100) 40).sendAll 40 32 [0x55,0xA3] ⟨0,0,[]⟩ = some frames ∧
      (steady ⟨0,0⟩ 7 0).receiveAll (signal true frames.flatten) 500 32 2 ⟨0,0,[]⟩ =
        some [0x55,0xA3] := by
  have hpace : Paced 1 32 := ⟨by decide, by decide⟩
  obtain ⟨frames,hframes,hreceive⟩ := uart_round_trip hpace
    (steady_within (l := ⟨0,0⟩) le_rfl (2^32-100) 40) (steady_within (l := ⟨0,0⟩) le_rfl 7 0)
    [0x55,0xA3] ⟨0,0,[]⟩ ⟨0,0,[]⟩ (show (32 : Word).toNat < 40 by decide)
  have hready : ((steady ⟨0,0⟩ (2^32-100) 40).sendAll 40 32 [0x55,0xA3] ⟨0,0,[]⟩).all (fun fs =>
      (∀ f ∈ fs, startBit f < 500) ∧ (steady ⟨0,0⟩ 7 0).MeetsStarts (signal true fs.flatten) 500 32
        (steady ⟨0,0⟩ 7 0).ReadsBefore ⟨0,0,[]⟩ (fs.map startBit)) = true := by
    decide +kernel
  rw [hframes] at hready
  obtain ⟨hwait,hreads⟩ := of_decide_eq_true hready
  exact ⟨frames, hframes, hreceive 500 (by decide) hwait hreads⟩

/-- One poll of the receiver ends 32 cycles early, and one later on after 64 cycles. -/
def unsteady : Side :=
  ⟨fun k => if k = 70 then ⟨0, 2^27-34⟩ else if k = 105 then ⟨0,63⟩ else ⟨0, 2^27-2⟩, 0,
    fun _ => 0, fun _ => 0⟩

theorem unsteady_within : unsteady.Within (2^27-1) := by
  intro k
  change Latency.cycles (if k = 70 then ⟨0, 2^27-34⟩ else if k = 105 then ⟨0,63⟩
    else ⟨0, 2^27-2⟩) ≤ 2^27-1
  split_ifs <;> decide

/-- Two ways to read another byte. A call that starts one cycle before the line falls, and reads it
one cycle later, waits for the next fall; and polls that are up to `d` cycles apart step over the
rest of the counter's range behind a deadline of `2^32-32` cycles. -/
theorem uart_round_trip_missed :
    (∃ frames, (steady ⟨0,0⟩ 0 0).sendAll 70 64 [0x55] ⟨0,0,[]⟩ = some frames ∧
      (steady ⟨1,0⟩ 0 66).MeetsStarts (signal true frames.flatten) 500 64
        (steady ⟨1,0⟩ 0 66).EntersBefore ⟨0,0,[]⟩ (frames.map startBit) ∧
      (steady ⟨1,0⟩ 0 66).receiveAll (signal true frames.flatten) 500 64 1 ⟨0,0,[]⟩ =
        some [0xD5]) ∧
    (∃ frames, (steady ⟨0,2^27-2⟩ 0 0).sendAll 40 (-32) [0x55] ⟨0,0,[]⟩ = some frames ∧
      unsteady.MeetsStarts (signal true frames.flatten) 200 (-32) unsteady.ReadsBefore ⟨0,0,[]⟩
        (frames.map startBit) ∧
      unsteady.receiveAll (signal true frames.flatten) 200 (-32) 1 ⟨0,0,[]⟩ = some [0xAA]) ∧
    (steady ⟨0,0⟩ 0 0).Within 2 ∧ (steady ⟨1,0⟩ 0 66).Within 2 ∧ 32*2 ≤ (64 : Word).toNat ∧
    (steady ⟨0,2^27-2⟩ 0 0).Within (2^27-1) ∧ unsteady.Within (2^27-1) ∧
    32*(2^27-1) ≤ (-32 : Word).toNat := by
  refine ⟨⟨[[(2,true), (67,false), (131,true), (193,false), (257,true), (321,false), (385,true),
    (449,false), (513,true), (577,false), (642,true)]], ?_, ?_, ?_⟩, ⟨[[(268435454,true),
    (4697620445,false), (8992587709,true), (13019119519,false), (17314086783,true),
    (21609054047,false), (25904021311,true), (30198988575,false), (34493955839,true),
    (38788923103,false), (43218108094,true)]], ?_, ?_, ?_⟩, ?_, ?_, ?_, ?_,
    unsteady_within, ?_⟩
  case refine_7 | refine_8 | refine_10 => exact steady_within (by decide) _ _
  all_goals decide +kernel

end DistributedPis
