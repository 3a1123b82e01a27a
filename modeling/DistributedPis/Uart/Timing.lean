import DistributedPis.Uart.Program
import DistributedPis.Library.Signal

/-! The operations of the software UART in time. An operation takes effect in one of the cycles
that it takes, all else takes no time, and two sides count the same cycles. -/
namespace DistributedPis
open Library

/-- An operation takes effect after `before` cycles, and ends `after` more cycles behind that. -/
structure Latency where
  before : ℕ
  after : ℕ

def Latency.cycles (l : Latency) : ℕ := l.before + 1 + l.after

/-- One side of the line: the latency of every operation, the value of its cycle counter at time 0,
its microsecond timer, and how long it waits before a call. -/
structure Side where
  lat : ℕ → Latency
  counter : ℕ
  usec : ℕ → Word
  pause : ℕ → ℕ

/-- The time, the number of operations so far, and the writes with their times. -/
structure Timed where
  now : ℕ
  ops : ℕ
  writes : List (ℕ × Bool)
  deriving DecidableEq

namespace Side
variable (side : Side) (line : ℕ → Bool)

/-- No operation takes more than `d` cycles. -/
def Within (d : ℕ) : Prop := ∀ k, (side.lat k).cycles ≤ d

/-- When the next operation takes effect. -/
def effect (s : Timed) : ℕ := s.now + (side.lat s.ops).before

def tick (s : Timed) : Timed := {s with now := s.now + (side.lat s.ops).cycles, ops := s.ops+1}

/-- The cycle counter at time `t`. -/
def count (t : ℕ) : Word := BitVec.ofNat 32 (side.counter+t)

/-- The operations, on a line with the given levels. -/
def hardware : Hardware Timed where
  gpioRead s := (line (side.effect s), side.tick s)
  gpioWrite v s := {side.tick s with writes := s.writes ++ [(side.effect s, v)]}
  cycleCntRead s := (side.count (side.effect s), side.tick s)
  timerGetUsec s := (side.usec (side.effect s), side.tick s)

/-- What passes before a call. -/
def wait (s : Timed) : Timed := {s with now := s.now + side.pause s.ops}

@[simp] theorem hardware_gpioRead (s : Timed) :
    (side.hardware line).gpioRead s = (line (side.effect s), side.tick s) := rfl

@[simp] theorem hardware_cycleCntRead (s : Timed) :
    (side.hardware line).cycleCntRead s = (side.count (side.effect s), side.tick s) := rfl

@[simp] theorem tick_writes (s : Timed) : (side.tick s).writes = s.writes := rfl

variable {side line} {d fuel T t : ℕ} {n : Word} {v : Bool} {s : Timed}

/-- An operation takes effect before it ends, and it ends in time. -/
theorem Within.tick (h : side.Within d) (s : Timed) :
    s.now ≤ side.effect s ∧ side.effect s < (side.tick s).now ∧
      (side.tick s).now ≤ s.now + d ∧ (side.tick s).now ≤ side.effect s + d := by
  have hd := h s.ops
  simp only [Side.effect, Side.tick, Latency.cycles] at hd ⊢
  omega

theorem count_add (t : ℕ) (n : Word) : side.count t + n = side.count (t+n.toNat) := by
  apply BitVec.eq_of_toNat_eq
  simp only [count, BitVec.toNat_add, BitVec.toNat_ofNat]
  omega

/-- The difference of two counter values less than one round apart. -/
theorem count_sub (hT : T ≤ t) (h : t < T+2^32) : (side.count t - side.count T).toNat = t-T := by
  simp only [count, BitVec.toNat_sub, BitVec.toNat_ofNat]
  omega

theorem delayNcycles_succ (start : Word) :
    (side.hardware line).delayNcycles (fuel+1) start n s =
      if (side.count (side.effect s) - start).toNat < n.toNat then
        (side.hardware line).delayNcycles fuel start n (side.tick s)
      else some (side.count (side.effect s), side.tick s) := rfl

/-- The loop ends within two operations of its deadline. -/
theorem Within.delay (h : side.Within d) (hn : n.toNat + 2*d ≤ 2^32+1) (hT : T ≤ s.now)
    (hnow : s.now < T + n.toNat + d) (hfuel : T + n.toNat < s.now + fuel) (hpos : 0 < fuel) :
    ∃ c s', (side.hardware line).delayNcycles fuel (side.count T) n s = some (c,s') ∧
      T + n.toNat < s'.now ∧ s'.now < T + n.toNat + 2*d ∧ s'.writes = s.writes := by
  induction fuel generalizing s with
  | zero => exact absurd hpos (Nat.lt_irrefl 0)
  | succ fuel ih =>
    obtain ⟨hlo,hlt,hend,hend'⟩ := h.tick s
    rw [delayNcycles_succ, count_sub (by omega) (by omega)]
    by_cases hx : side.effect s - T < n.toNat
    · rw [if_pos hx]
      exact ih (by omega) (by omega) (by omega) (by omega)
    · rw [if_neg hx]
      exact ⟨_, _, rfl, by omega, by omega, rfl⟩

variable (line) in
/-- A write takes effect at once; the call ends within two operations of its deadline. -/
theorem Within.write (h : side.Within d) (hn : n.toNat + 2*d ≤ 2^32+1) (hT : T ≤ s.now)
    (hnow : s.now < T + n.toNat) (hfuel : n.toNat < fuel) (v : Bool) :
    ∃ w c s', (side.hardware line).writeCycUntil fuel v (side.count T) n s = some (c,s') ∧
      (s.now ≤ w ∧ w < s.now + d) ∧ (T + n.toNat < s'.now ∧ s'.now < T + n.toNat + 2*d) ∧
      s'.writes = s.writes ++ [(w,v)] := by
  obtain ⟨hlo,hlt,hend,_⟩ := h.tick s
  have hnow' : ((side.hardware line).gpioWrite v s).now = (side.tick s).now := rfl
  obtain ⟨c,s',hdelay,hafter,hbefore,hwrites⟩ :
      ∃ c s', (side.hardware line).delayNcycles fuel (side.count T) n
        ((side.hardware line).gpioWrite v s) = some (c,s') ∧ _ :=
    h.delay hn (by omega) (by omega) (by omega) (by omega)
  exact ⟨side.effect s, c, s', hdelay, ⟨hlo, by omega⟩, ⟨hafter,hbefore⟩, hwrites⟩

end Side

end DistributedPis
