import DistributedPis.Library.Words

/-! The software UART of `sw-uart.c` over the operations of the hardware. Every loop that waits has
fuel, and there is no result without it. -/
namespace DistributedPis
open Library

/-- The operations on a state `σ` of the hardware; the counters have 32 bits. -/
structure Hardware (σ : Type*) where
  gpioRead : σ → Bool × σ
  gpioWrite : Bool → σ → σ
  cycleCntRead : σ → Word × σ
  timerGetUsec : σ → Word × σ

namespace Hardware
variable {σ : Type*} (hw : Hardware σ) (fuel : ℕ)

/-- `delay_ncycles` -/
def delayNcycles : ℕ → Word → Word → σ → Option (Word × σ)
  | 0, _, _, _ => none
  | fuel+1, start, n, s =>
    let (c,s) := hw.cycleCntRead s
    if (c-start).toNat < n.toNat then delayNcycles fuel start n s else some (c,s)

/-- `write_cyc_until` -/
def writeCycUntil (v : Bool) (start ncycles : Word) (s : σ) : Option (Word × σ) :=
  hw.delayNcycles fuel start ncycles (hw.gpioWrite v s)

/-- The last `n` of the eight data bits, from bit `i` on. -/
def putBits (cyclePerBit : Word) (c : UInt8) : ℕ → ℕ → Word → σ → Option σ
  | 0, _, _, s => some s
  | n+1, i, start, s => do
    let (_,s) ← hw.writeCycUntil fuel (c.toNat.testBit i) start cyclePerBit s
    putBits cyclePerBit c n (i+1) (start+cyclePerBit) s

/-- `sw_uart_put8` -/
def swUartPut8 (cyclePerBit : Word) (c : UInt8) (s : σ) : Option σ := do
  let (start,s) := hw.cycleCntRead s
  -- forces a falling edge
  let (now,s) := hw.cycleCntRead s
  let (_,s) ← hw.writeCycUntil fuel true now cyclePerBit s
  let start := start+cyclePerBit
  -- start bit
  let (now,s) := hw.cycleCntRead s
  let (_,s) ← hw.writeCycUntil fuel false now cyclePerBit s
  let start := start+cyclePerBit
  let s ← hw.putBits fuel cyclePerBit c 8 0 start s
  let (now,s) := hw.cycleCntRead s
  let (_,s) ← hw.writeCycUntil fuel true now cyclePerBit s
  some s

/-- The loop that waits while the line has the level `v`. -/
def waitWhile (v : Bool) : ℕ → σ → Option σ
  | 0, _ => none
  | fuel+1, s =>
    let (b,s) := hw.gpioRead s
    if b = v then waitWhile v fuel s else some s

/-- The last `n` of the eight samples, from bit `i` on. -/
def getBits (cyclePerBit : Word) : ℕ → ℕ → Word → ℕ → σ → Option (ℕ × σ)
  | 0, _, _, c, s => some (c,s)
  | n+1, i, start, c, s => do
    let (b,s) := hw.gpioRead s
    let c := c ||| b.toNat <<< i
    let (_,s) ← hw.delayNcycles fuel start cyclePerBit s
    getBits cyclePerBit n (i+1) (start+cyclePerBit) c s

/-- What both readers do once they have seen the start bit. -/
def sampleByte (cyclePerBit : Word) (s : σ) : Option (ℕ × σ) := do
  let (start,s) := hw.cycleCntRead s
  let (_,s) ← hw.delayNcycles fuel start (cyclePerBit/2) s
  let start := start+cyclePerBit/2
  let (_,s) ← hw.delayNcycles fuel start cyclePerBit s
  let start := start+cyclePerBit
  hw.getBits fuel cyclePerBit 8 0 start 0 s

/-- `sw_uart_get8` -/
def swUartGet8 (cyclePerBit : Word) (s : σ) : Option (ℕ × σ) := do
  let s ← hw.waitWhile false fuel s
  let s ← hw.waitWhile true fuel s
  hw.sampleByte fuel cyclePerBit s

/-- The loop that also ends once the timeout has passed. -/
def waitWhileTimed (v : Bool) (timerSt timeoutUsec : Word) : ℕ → σ → Option σ
  | 0, _ => none
  | fuel+1, s =>
    let (b,s) := hw.gpioRead s
    if b = v then
      let (t,s) := hw.timerGetUsec s
      if (t-timerSt).toNat < timeoutUsec.toNat then waitWhileTimed v timerSt timeoutUsec fuel s
      else some s
    else some s

/-- The two loops of `sw_uart_get8_timeout`. -/
def waitStart (timerSt timeoutUsec : Word) (s : σ) : Option σ := do
  let s ← hw.waitWhileTimed false timerSt timeoutUsec fuel s
  hw.waitWhileTimed true timerSt timeoutUsec fuel s

/-- `sw_uart_get8_timeout` -/
def swUartGet8Timeout (cyclePerBit timeoutUsec : Word) (s : σ) : Option (ℤ × σ) := do
  let (timerSt,s) := hw.timerGetUsec s
  let s ← hw.waitStart fuel timerSt timeoutUsec s
  let (t,s) := hw.timerGetUsec s
  if timeoutUsec.toNat < (t-timerSt).toNat then some (-1,s)
  else
    let (c,s) ← hw.sampleByte fuel cyclePerBit s
    some (c,s)

end Hardware

end DistributedPis
