import DistributedPis.Uart.Program

/-! When `sw_uart_get8_timeout` gives up. Its loops stop on the timer reading that they have just
taken; what it returns depends on one more reading. -/
namespace DistributedPis
open Library

/-- What the operations will read, in the order of their calls. -/
structure Script where
  levels : ℕ → Bool
  usecs : ℕ → Word
  cycles : ℕ → Word

/-- How much of a script has been read. -/
structure Taken where
  reads : ℕ
  timers : ℕ
  counts : ℕ
  deriving DecidableEq

namespace Script
variable (e : Script) (timeoutUsec : Word)

def hardware : Hardware Taken where
  gpioRead p := (e.levels p.reads, {p with reads := p.reads+1})
  gpioWrite _ p := p
  cycleCntRead p := (e.cycles p.counts, {p with counts := p.counts+1})
  timerGetUsec p := (e.usecs p.timers, {p with timers := p.timers+1})

/-- The microseconds from the first timer reading to reading `k`. -/
def elapsed (k : ℕ) : ℕ := (e.usecs k - e.usecs 0).toNat

/-- From read `r` and timer reading `t` on, the loop waits for `n` rounds. -/
def Waits (v : Bool) (r t n : ℕ) : Prop :=
  ∀ k < n, e.levels (r+k) = v ∧ e.elapsed (t+k) < timeoutUsec.toNat

/-- Then it reads the other level. -/
def EndsOnLevel (v : Bool) (r t n : ℕ) : Prop :=
  e.Waits timeoutUsec v r t n ∧ e.levels (r+n) = !v

/-- Or it finds that the time has passed. -/
def EndsOnTimer (v : Bool) (r t n : ℕ) : Prop :=
  e.Waits timeoutUsec v r t n ∧ e.levels (r+n) = v ∧ timeoutUsec.toNat ≤ e.elapsed (t+n)

/-- The second loop starts with read `r` and timer reading `t`. -/
def SecondFrom (r t : ℕ) : Prop :=
  ∃ m, r = m+1 ∧ (e.EndsOnLevel timeoutUsec false 0 1 m ∧ t = m+1 ∨
    e.EndsOnTimer timeoutUsec false 0 1 m ∧ t = m+2)

/-- The timer does not pass the timeout between a start bit and the reading behind the loops, and
it has passed it by that reading when there is no start bit. -/
def InTime : Prop :=
  ∀ r t n, e.SecondFrom timeoutUsec r t →
    (e.EndsOnLevel timeoutUsec true r t n → e.elapsed (t+n) ≤ timeoutUsec.toNat) ∧
      (e.EndsOnTimer timeoutUsec true r t n → timeoutUsec.toNat < e.elapsed (t+n+1))

/-- Once its loops have ended, the call samples a byte if they ended on a low line, and returns -1
otherwise. -/
def Decides (cyclePerBit : Word) : Prop :=
  ∀ fuel p, e.hardware.waitStart fuel (e.usecs 0) timeoutUsec ⟨0,1,0⟩ = some p →
    e.hardware.swUartGet8Timeout fuel cyclePerBit timeoutUsec ⟨0,0,0⟩ =
      if e.levels (p.reads-1) = false then
        (e.hardware.sampleByte fuel cyclePerBit {p with timers := p.timers+1}).map
          fun r => ((r.1 : ℤ), r.2)
      else some (-1, {p with timers := p.timers+1})

variable {e timeoutUsec} {v : Bool} {fuel r t n : ℕ} {p q : Taken}

theorem waits_zero : e.Waits timeoutUsec v r t 0 := fun _ hk => absurd hk (Nat.not_lt_zero _)

theorem waits_succ : e.Waits timeoutUsec v r t (n+1) ↔
    (e.levels r = v ∧ e.elapsed t < timeoutUsec.toNat) ∧
      e.Waits timeoutUsec v (r+1) (t+1) n := by
  constructor
  · intro h
    refine ⟨h 0 (Nat.succ_pos n), fun k hk => ?_⟩
    rw [Nat.succ_add_eq_add_succ, Nat.succ_add_eq_add_succ]
    exact h (k+1) (Nat.succ_lt_succ hk)
  · rintro ⟨h0,h⟩ k hk
    cases k with
    | zero => exact h0
    | succ k =>
      rw [← Nat.succ_add_eq_add_succ r, ← Nat.succ_add_eq_add_succ t]
      exact h k (Nat.lt_of_succ_lt_succ hk)

theorem endsOnLevel_succ : e.EndsOnLevel timeoutUsec v r t (n+1) ↔
    (e.levels r = v ∧ e.elapsed t < timeoutUsec.toNat) ∧
      e.EndsOnLevel timeoutUsec v (r+1) (t+1) n := by
  rw [EndsOnLevel, EndsOnLevel, waits_succ, Nat.succ_add_eq_add_succ, and_assoc]

theorem endsOnTimer_succ : e.EndsOnTimer timeoutUsec v r t (n+1) ↔
    (e.levels r = v ∧ e.elapsed t < timeoutUsec.toNat) ∧
      e.EndsOnTimer timeoutUsec v (r+1) (t+1) n := by
  rw [EndsOnTimer, EndsOnTimer, waits_succ, Nat.succ_add_eq_add_succ, Nat.succ_add_eq_add_succ,
    and_assoc]

/-- The loop that starts from `p` ends in `q` after `n` rounds of waiting. -/
def LoopEnds (e : Script) (timeoutUsec : Word) (v : Bool) (p q : Taken) (n : ℕ) : Prop :=
  e.EndsOnLevel timeoutUsec v p.reads p.timers n ∧ q = ⟨p.reads+n+1, p.timers+n, p.counts⟩ ∨
    e.EndsOnTimer timeoutUsec v p.reads p.timers n ∧ q = ⟨p.reads+n+1, p.timers+n+1, p.counts⟩

theorem loopEnds_succ : e.LoopEnds timeoutUsec v p q (n+1) ↔
    (e.levels p.reads = v ∧ e.elapsed p.timers < timeoutUsec.toNat) ∧
      e.LoopEnds timeoutUsec v ⟨p.reads+1, p.timers+1, p.counts⟩ q n := by
  simp only [LoopEnds, endsOnLevel_succ, endsOnTimer_succ, Nat.succ_add_eq_add_succ, and_assoc,
    and_or_left]

theorem loopEnds_zero : e.LoopEnds timeoutUsec v p q 0 ↔
    e.levels p.reads = !v ∧ q = ⟨p.reads+1, p.timers, p.counts⟩ ∨
      (e.levels p.reads = v ∧ timeoutUsec.toNat ≤ e.elapsed p.timers) ∧
        q = ⟨p.reads+1, p.timers+1, p.counts⟩ := by
  simp only [LoopEnds, EndsOnLevel, EndsOnTimer, waits_zero, true_and, Nat.add_zero]

theorem waitWhileTimed_succ :
    e.hardware.waitWhileTimed v (e.usecs 0) timeoutUsec (fuel+1) p =
      if e.levels p.reads = v then
        if e.elapsed p.timers < timeoutUsec.toNat then
          e.hardware.waitWhileTimed v (e.usecs 0) timeoutUsec fuel
            ⟨p.reads+1, p.timers+1, p.counts⟩
        else some ⟨p.reads+1, p.timers+1, p.counts⟩
      else some ⟨p.reads+1, p.timers, p.counts⟩ := rfl

/-- The ways in which a loop ends. -/
theorem waitWhileTimed_iff :
    e.hardware.waitWhileTimed v (e.usecs 0) timeoutUsec fuel p = some q ↔
      ∃ n < fuel, e.LoopEnds timeoutUsec v p q n := by
  induction fuel generalizing p with
  | zero => exact iff_of_false (by rintro ⟨⟩) (by simp)
  | succ fuel ih =>
    rw [Nat.exists_lt_succ_left, loopEnds_zero, waitWhileTimed_succ]
    simp only [loopEnds_succ]
    by_cases hb : e.levels p.reads = v
    · by_cases ht : e.elapsed p.timers < timeoutUsec.toNat
      · have hnot : ¬ timeoutUsec.toNat ≤ e.elapsed p.timers := by omega
        rw [if_pos hb, if_pos ht, ih]
        simp [hb, ht, hnot]
      · rw [if_pos hb, if_neg ht]
        simp [hb, ht, Nat.le_of_not_lt ht, eq_comm]
    · have hother : e.levels p.reads = !v := by
        cases v <;> simpa using hb
      rw [if_neg hb]
      simp [hother, eq_comm]

theorem secondFrom_iff :
    e.SecondFrom timeoutUsec r t ↔ ∃ m, e.LoopEnds timeoutUsec false ⟨0,1,0⟩ ⟨r,t,0⟩ m := by
  refine exists_congr fun m => ?_
  simp only [LoopEnds, Taken.mk.injEq, and_true, Nat.zero_add, Nat.add_comm 1 m]
  tauto

theorem LoopEnds.counts (h : e.LoopEnds timeoutUsec v p q n) : q.counts = p.counts := by
  rcases h with ⟨_,rfl⟩ | ⟨_,rfl⟩ <;> rfl

/-- Where both loops end. -/
theorem waitStart_iff :
    (∃ fuel, e.hardware.waitStart fuel (e.usecs 0) timeoutUsec ⟨0,1,0⟩ = some q) ↔
      ∃ r t n, e.SecondFrom timeoutUsec r t ∧ e.LoopEnds timeoutUsec true ⟨r,t,0⟩ q n := by
  constructor
  · rintro ⟨fuel,h⟩
    obtain ⟨p,hp,hq⟩ := Option.bind_eq_some_iff.mp h
    obtain ⟨m,_,hm⟩ := waitWhileTimed_iff.mp hp
    obtain ⟨n,_,hn⟩ := waitWhileTimed_iff.mp hq
    obtain ⟨r,t,c⟩ := p
    obtain rfl : c = 0 := hm.counts
    exact ⟨r,t,n, secondFrom_iff.mpr ⟨m,hm⟩, hn⟩
  · rintro ⟨r,t,n,hsecond,hn⟩
    obtain ⟨m,hm⟩ := secondFrom_iff.mp hsecond
    refine ⟨m+n+1, Option.bind_eq_some_iff.mpr ⟨⟨r,t,0⟩, ?_, ?_⟩⟩
    · exact waitWhileTimed_iff.mpr ⟨m, by omega, hm⟩
    · exact waitWhileTimed_iff.mpr ⟨n, by omega, hn⟩

variable {cyclePerBit : Word}

/-- What the call returns depends on the reading behind the loops. -/
theorem get8Timeout_eq
    (h : e.hardware.waitStart fuel (e.usecs 0) timeoutUsec ⟨0,1,0⟩ = some p) :
    e.hardware.swUartGet8Timeout fuel cyclePerBit timeoutUsec ⟨0,0,0⟩ =
      if timeoutUsec.toNat < e.elapsed p.timers then some (-1, {p with timers := p.timers+1})
      else (e.hardware.sampleByte fuel cyclePerBit {p with timers := p.timers+1}).map
        fun r => ((r.1 : ℤ), r.2) := by
  have hrun : e.hardware.swUartGet8Timeout fuel cyclePerBit timeoutUsec ⟨0,0,0⟩ =
      (e.hardware.waitStart fuel (e.usecs 0) timeoutUsec ⟨0,1,0⟩).bind fun p =>
        if timeoutUsec.toNat < e.elapsed p.timers then some (-1, {p with timers := p.timers+1})
        else (e.hardware.sampleByte fuel cyclePerBit {p with timers := p.timers+1}).bind
          fun r => some ((r.1 : ℤ), r.2) := rfl
  rw [hrun, h, Option.bind_some, Option.map_eq_bind]
  rfl

/-- A sampled byte is not -1. -/
theorem sample_ne_timeout {r : Option (ℕ × Taken)} {q : Taken} :
    r.map (fun r => ((r.1 : ℤ), r.2)) ≠ some (-1,q) := by
  intro h
  obtain ⟨⟨c,_⟩,_,hc⟩ := Option.map_eq_some_iff.mp h
  have hneg : (c : ℤ) = -1 := congrArg Prod.fst hc
  omega

theorem decides_at_iff
    (h : e.hardware.waitStart fuel (e.usecs 0) timeoutUsec ⟨0,1,0⟩ = some p) :
    (e.hardware.swUartGet8Timeout fuel cyclePerBit timeoutUsec ⟨0,0,0⟩ =
      if e.levels (p.reads-1) = false then
        (e.hardware.sampleByte fuel cyclePerBit {p with timers := p.timers+1}).map
          fun r => ((r.1 : ℤ), r.2)
      else some (-1, {p with timers := p.timers+1})) ↔
    (e.levels (p.reads-1) = false ↔ e.elapsed p.timers ≤ timeoutUsec.toNat) := by
  rw [get8Timeout_eq h]
  by_cases hlow : e.levels (p.reads-1) = false
  · by_cases ht : timeoutUsec.toNat < e.elapsed p.timers
    · rw [if_pos ht, if_pos hlow]
      exact iff_of_false (fun heq => sample_ne_timeout heq.symm) (by simp [hlow, ht])
    · rw [if_neg ht, if_pos hlow]
      exact iff_of_true rfl (by simp [hlow, Nat.le_of_not_lt ht])
  · by_cases ht : timeoutUsec.toNat < e.elapsed p.timers
    · rw [if_pos ht, if_neg hlow]
      exact iff_of_true rfl (by simp [hlow, ht])
    · rw [if_neg ht, if_neg hlow]
      exact iff_of_false sample_ne_timeout (by simp [hlow, Nat.le_of_not_lt ht])

theorem loopEnds_decision (h : e.LoopEnds timeoutUsec true p q n) :
    (e.levels (q.reads-1) = false ↔ e.elapsed q.timers ≤ timeoutUsec.toNat) ↔
      (e.EndsOnLevel timeoutUsec true p.reads p.timers n →
          e.elapsed (p.timers+n) ≤ timeoutUsec.toNat) ∧
        (e.EndsOnTimer timeoutUsec true p.reads p.timers n →
          timeoutUsec.toNat < e.elapsed (p.timers+n+1)) := by
  rcases h with ⟨hlevel,rfl⟩ | ⟨htimer,rfl⟩
  · have hlow : e.levels (p.reads+n) = false := hlevel.2
    have hnot : ¬ e.EndsOnTimer timeoutUsec true p.reads p.timers n := by
      intro h
      have hhigh := h.2.1
      rw [hlow] at hhigh
      cases hhigh
    simp [hlow, hlevel, hnot]
  · have hhigh : e.levels (p.reads+n) = true := htimer.2.1
    have hnot : ¬ e.EndsOnLevel timeoutUsec true p.reads p.timers n := by
      intro h
      have hlow := h.2
      rw [hhigh] at hlow
      cases hlow
    simp [hhigh, htimer, hnot]

theorem Decides.of_ends (h : e.Decides timeoutUsec cyclePerBit)
    (hsecond : e.SecondFrom timeoutUsec r t) (hends : e.LoopEnds timeoutUsec true ⟨r,t,0⟩ q n) :
    (e.EndsOnLevel timeoutUsec true r t n → e.elapsed (t+n) ≤ timeoutUsec.toNat) ∧
      (e.EndsOnTimer timeoutUsec true r t n → timeoutUsec.toNat < e.elapsed (t+n+1)) := by
  obtain ⟨fuel,hp⟩ := waitStart_iff.mpr ⟨r,t,n,hsecond,hends⟩
  exact (loopEnds_decision hends).mp ((decides_at_iff hp).mp (h fuel q hp))

/-- The call decides by what its loops have seen exactly if the timer agrees with them. -/
theorem decides_iff_inTime (e : Script) (cyclePerBit timeoutUsec : Word) :
    e.Decides timeoutUsec cyclePerBit ↔ e.InTime timeoutUsec := by
  constructor
  · intro h r t n hsecond
    refine ⟨fun hlevel => ?_, fun htimer => ?_⟩
    · exact (h.of_ends hsecond (.inl ⟨hlevel,rfl⟩)).1 hlevel
    · exact (h.of_ends hsecond (.inr ⟨htimer,rfl⟩)).2 htimer
  · intro h fuel p hp
    obtain ⟨r,t,n,hsecond,hends⟩ := waitStart_iff.mp ⟨fuel,hp⟩
    exact (decides_at_iff hp).mpr ((loopEnds_decision hends).mpr (h r t n hsecond))

/-- A line that stays high and a timer that stays at the timeout: the call reads a byte. -/
def idle : Script := ⟨fun _ => true, fun _ => 0, BitVec.ofNat 32⟩

/-- A start bit just before the timeout passes: the call gives up. -/
def late : Script := ⟨fun k => k = 0, fun k => if k = 0 then 0 else 5, BitVec.ofNat 32⟩

theorem timer_disagrees :
    (idle.hardware.waitStart 9 0 0 ⟨0,1,0⟩ = some ⟨2,2,0⟩ ∧ idle.levels 1 = true ∧
      (idle.hardware.swUartGet8Timeout 9 1 0 ⟨0,0,0⟩).map Prod.fst = some 255) ∧
    (late.hardware.waitStart 9 0 3 ⟨0,1,0⟩ = some ⟨2,1,0⟩ ∧ late.levels 1 = false ∧
      (late.hardware.swUartGet8Timeout 9 1 3 ⟨0,0,0⟩).map Prod.fst = some (-1)) ∧
    ¬ idle.Decides 0 1 ∧ ¬ late.Decides 3 1 := by
  refine ⟨by decide +kernel, by decide +kernel, fun h => ?_, fun h => ?_⟩
  · have hreturn := congrArg (Option.map Prod.fst) (h 9 ⟨2,2,0⟩ (by decide +kernel))
    exact absurd hreturn (by decide +kernel)
  · have hreturn := congrArg (Option.map Prod.fst) (h 9 ⟨2,1,0⟩ (by decide +kernel))
    exact absurd hreturn (by decide +kernel)

end Script

end DistributedPis
