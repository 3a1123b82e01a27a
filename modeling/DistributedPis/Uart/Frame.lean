import DistributedPis.Uart.Timing

/-! One byte on the line: the cells that `sw_uart_put8` writes, and the samples of `sw_uart_get8`,
each of which falls into the cell of its bit. -/
namespace DistributedPis
open Library

/-- The level of cell `k` of a frame: the start bit, eight data bits, the stop bit. -/
def frameBit (c : UInt8) (k : ℕ) : Bool :=
  if k = 0 then false else if k = 9 then true else c.toNat.testBit (k-1)

/-- The changes of a frame that is sent between `t` and `t'`: the line goes high at `u` and into
cell `k` at `w k`. -/
structure FrameTimes (d cpb t t' u : ℕ) (w : ℕ → ℕ) : Prop where
  begins : t ≤ u
  falls : u < w 0
  early : ∀ k, 1 ≤ k → k ≤ 9 → w 0 + k*cpb ≤ w k + 7*d
  late : ∀ k, 1 ≤ k → k ≤ 9 → w k < w 0 + k*cpb + 11*d
  ends : w 9 < t'

/-- A bit takes long enough for the operations, and is short enough for the counter. -/
structure Paced (d : ℕ) (cyclePerBit : Word) : Prop where
  slow : 32*d ≤ cyclePerBit.toNat
  fits : cyclePerBit.toNat + 2*d ≤ 2^32+1

/-- On the line is a frame, from before it starts. -/
structure Cells (line : ℕ → Bool) (r : ℕ) (c : UInt8) (w : ℕ → ℕ) : Prop where
  high : ∀ x, r ≤ x → x < w 0 → line x = true
  cell : ∀ k ≤ 8, ∀ x, w k ≤ x → x < w (k+1) → line x = frameBit c k

section Cells
variable {d t t' u x : ℕ} {w : ℕ → ℕ} {c : UInt8} {rest : List (ℕ × Bool)}

/-- The cells come one after the other. -/
theorem FrameTimes.lt {cpb j k : ℕ} (h : FrameTimes d cpb t t' u w) (hslow : 32*d ≤ cpb)
    (hd : 0 < d) (hjk : j < k) (hk : k ≤ 9) : w j < w k := by
  have hmul : (j+1)*cpb ≤ k*cpb := Nat.mul_le_mul_right cpb hjk
  have hearly := h.early k (by omega) hk
  rw [Nat.succ_mul] at hmul
  rcases Nat.eq_zero_or_pos j with rfl | hj
  · omega
  · have hlate := h.late j hj (by omega)
    omega

theorem FrameTimes.mem {cpb : ℕ} (h : FrameTimes d cpb t t' u w) (hslow : 32*d ≤ cpb)
    (hd : 0 < d) {y : ℕ × Bool} (hy : y ∈ (u,true) :: changes w (frameBit c) 10) :
    t ≤ y.1 ∧ y.1 ≤ w 9 := by
  have hfalls := h.falls
  have hbegins := h.begins
  have hlast := h.lt hslow hd (j := 0) (k := 9) (by omega) le_rfl
  rcases List.mem_cons.mp hy with rfl | hy
  · exact ⟨hbegins, (hfalls.trans hlast).le⟩
  · obtain ⟨k,hk,rfl⟩ := mem_changes.mp hy
    constructor
    · rcases Nat.eq_zero_or_pos k with rfl | hpos
      · exact hbegins.trans hfalls.le
      · have hlt := h.lt hslow hd hpos (by omega)
        exact hbegins.trans (hfalls.trans hlt).le
    · rcases Nat.lt_or_eq_of_le (Nat.le_of_lt_succ hk) with hlt | rfl
      · exact (h.lt hslow hd hlt le_rfl).le
      · exact le_rfl

theorem signal_pulse (u x : ℕ) : signal true [(u,true)] x = true := ite_self true

theorem signal_frame (ws : List (ℕ × Bool)) :
    signal true ((u,true)::ws) x = signal true ws x := by
  have hcons : (u,true)::ws = [(u,true)] ++ ws := rfl
  rw [hcons, signal_append, signal_pulse]

/-- Until the start bit the line is high, then come the cells. -/
theorem FrameTimes.cells {cpb r : ℕ} {line : ℕ → Bool} (h : FrameTimes d cpb t t' u w)
    (hslow : 32*d ≤ cpb) (hd : 0 < d) (hrest : ∀ y ∈ rest, w 9 < y.1) (hr : r ≤ w 0)
    (hline : ∀ x, r ≤ x →
      line x = signal true (((u,true) :: changes w (frameBit c) 10) ++ rest) x) :
    Cells line r c w := by
  have hcell : ∀ k ≤ 9, ∀ x, r ≤ x → x < w k →
      line x = signal true (changes w (frameBit c) 10) x := by
    intro k hk x hrx hx
    have hlater : ∀ y ∈ rest, x < y.1 := by
      intro y hy
      have hlast := hrest y hy
      rcases Nat.lt_or_eq_of_le hk with hlt | rfl
      · exact hx.trans ((h.lt hslow hd hlt le_rfl).trans hlast)
      · exact hx.trans hlast
    rw [hline x hrx, signal_append_later hlater, signal_frame]
  constructor
  · intro x hrx hx
    rw [hcell 0 (Nat.zero_le 9) x hrx hx]
    refine signal_changes_before fun k hk => ?_
    rcases Nat.eq_zero_or_pos k with rfl | hpos
    · exact hx
    · exact hx.trans (h.lt hslow hd hpos (by omega))
  · intro k hk x hlo hhi
    have hrx : r ≤ x := by
      rcases Nat.eq_zero_or_pos k with rfl | hpos
      · exact hr.trans hlo
      · exact hr.trans ((h.lt hslow hd hpos (by omega)).le.trans hlo)
    rw [hcell (k+1) (by omega) x hrx hhi]
    refine signal_changes (by omega) hlo fun j hkj hj => ?_
    rcases Nat.lt_or_eq_of_le (Nat.succ_le_of_lt hkj) with hlt | rfl
    · exact hhi.trans (h.lt hslow hd hlt (by omega))
    · exact hhi

/-- Behind a frame the line is high until the next change. -/
theorem signal_behind (hx : w 9 ≤ x) :
    signal true (((u,true) :: changes w (frameBit c) 10) ++ rest) x = signal true rest x := by
  have hstop : signal true (changes w (frameBit c) 10) x = frameBit c 9 :=
    signal_changes (by omega) hx (by omega)
  rw [signal_append, signal_frame, hstop]
  rfl

end Cells

namespace Side
variable {side : Side} {line : ℕ → Bool} {d fuel T : ℕ} {cyclePerBit : Word} {s : Timed}

variable (line) in
/-- Each data bit is written behind its deadline, the next deadline is one bit later. -/
theorem Within.putBits (h : side.Within d) (hpace : Paced d cyclePerBit)
    (hfuel : cyclePerBit.toNat < fuel) (c : UInt8) (n i : ℕ) (hT : T ≤ s.now)
    (hnow : s.now < T + 8*d) :
    ∃ w s', (side.hardware line).putBits fuel cyclePerBit c n i (side.count T) s = some s' ∧
      s'.writes = s.writes ++ changes w (fun k => c.toNat.testBit (i+k)) n ∧
      (∀ k < n, T + k*cyclePerBit.toNat ≤ w k ∧ w k < T + k*cyclePerBit.toNat + 9*d) ∧
      T + n*cyclePerBit.toNat ≤ s'.now ∧ s'.now < T + n*cyclePerBit.toNat + 8*d := by
  have hslow := hpace.slow
  induction n generalizing i T s with
  | zero =>
    refine ⟨fun _ => 0, s, rfl, ?_, fun k hk => absurd hk (Nat.not_lt_zero k), ?_, ?_⟩
    · rw [changes, List.range_zero, List.map_nil, List.append_nil]
    · rwa [Nat.zero_mul, Nat.add_zero]
    · rwa [Nat.zero_mul, Nat.add_zero]
  | succ n ih =>
    obtain ⟨w₀,c',s₁,hwrite,⟨hlo,hhi⟩,⟨hafter,hbefore⟩,hwrites⟩ :=
      h.write line (T := T) hpace.fits hT (by omega) hfuel (c.toNat.testBit i)
    obtain ⟨w,s₂,hbits,hwrites',htimes,hafter',hbefore'⟩ :=
      ih (T := T+cyclePerBit.toNat) (s := s₁) (i+1) hafter.le (by omega)
    refine ⟨prepend w₀ w, s₂, ?_, ?_, ?_, ?_, ?_⟩
    · rw [Hardware.putBits, hwrite, Option.bind_eq_bind, Option.bind_some]
      simpa only [count_add] using hbits
    · have hadd : ∀ k, i+1+k = i+(k+1) := by omega
      simp only [hadd] at hwrites'
      rw [changes_prepend, hwrites', hwrites, List.append_assoc]
      rfl
    · intro k hk
      cases k with
      | zero =>
        rw [prepend_zero]
        omega
      | succ k =>
        obtain ⟨hlo',hhi'⟩ := htimes k (by omega)
        rw [prepend_succ, Nat.succ_mul]
        omega
    · rw [Nat.succ_mul]
      omega
    · rw [Nat.succ_mul]
      omega

/-- The changes of the start bit, of the data bits and of the stop bit, as those of one frame. -/
theorem changes_frame (c : UInt8) (w₀ w₉ : ℕ) (w : ℕ → ℕ) :
    [(w₀,false)] ++ changes w (fun k => c.toNat.testBit (0+k)) 8 ++ [(w₉,true)] =
      changes (prepend w₀ fun k => if k = 8 then w₉ else w k) (frameBit c) 10 := by
  have hbits : changes w (fun k => c.toNat.testBit (0+k)) 8 =
      changes (fun k => if k = 8 then w₉ else w k) (fun k => frameBit c (k+1)) 8 := by
    refine changes_congr fun k hk => ⟨(if_neg hk.ne).symm, ?_⟩
    rw [frameBit, if_neg (Nat.succ_ne_zero k), if_neg (by omega), Nat.zero_add, Nat.add_sub_cancel]
  rw [hbits, changes_prepend, changes_succ, List.append_assoc]
  rfl

/-- The times of a frame, from those of its data bits behind the deadlines from `T` on. -/
theorem frameTimes_of_bits {cpb t t' u w₀ w₉ : ℕ} {w : ℕ → ℕ} (hbegins : t ≤ u) (hfalls : u < w₀)
    (hlo : w₀ + cpb ≤ T + 7*d) (hhi : T ≤ w₀ + cpb + 2*d)
    (hbits : ∀ k < 8, T + k*cpb ≤ w k ∧ w k < T + k*cpb + 9*d)
    (hstop : w₀ + 9*cpb ≤ w₉ + 7*d) (hstop' : w₉ < w₀ + 9*cpb + 11*d) (hends : w₉ < t') :
    FrameTimes d cpb t t' u (prepend w₀ fun k => if k = 8 then w₉ else w k) := by
  have hcell : ∀ k, 1 ≤ k → k ≤ 9 →
      w₀ + k*cpb ≤ prepend w₀ (fun k => if k = 8 then w₉ else w k) k + 7*d ∧
        prepend w₀ (fun k => if k = 8 then w₉ else w k) k < w₀ + k*cpb + 11*d := by
    intro k hk hk'
    obtain ⟨j,rfl⟩ := Nat.exists_eq_add_of_le' hk
    rw [prepend_succ]
    by_cases hj : j = 8
    · subst hj
      rw [if_pos rfl]
      exact ⟨hstop,hstop'⟩
    · obtain ⟨hlow,hhigh⟩ := hbits j (by omega)
      rw [if_neg hj, Nat.succ_mul]
      omega
  exact ⟨hbegins, hfalls, fun k hk hk' => (hcell k hk hk').1, fun k hk hk' => (hcell k hk hk').2,
    hends⟩

variable (line) in
/-- `sw_uart_put8` writes one frame. -/
theorem Within.put8 (h : side.Within d) (hpace : Paced d cyclePerBit)
    (hfuel : cyclePerBit.toNat < fuel) (c : UInt8) (s : Timed) :
    ∃ u w s', (side.hardware line).swUartPut8 fuel cyclePerBit c s = some s' ∧
      s'.writes = s.writes ++ (u,true) :: changes w (frameBit c) 10 ∧
      FrameTimes d cyclePerBit.toNat s.now s'.now u w := by
  have hslow := hpace.slow
  have hn := hpace.fits
  obtain ⟨hA₁,hA₂,hA₃,hA₄⟩ := h.tick s
  obtain ⟨h₁,h₂,h₃,h₄⟩ := h.tick (side.tick s)
  -- the line is high for a bit
  obtain ⟨u,c₁,s₃,hwrite₁,⟨hu₁,hu₂⟩,⟨hafter₁,hbefore₁⟩,hwrites₁⟩ :=
    h.write line (T := side.effect (side.tick s)) (s := side.tick (side.tick s)) hn h₂.le
      (by omega) hfuel true
  obtain ⟨hB₁,hB₂,hB₃,hB₄⟩ := h.tick s₃
  -- the start bit
  obtain ⟨w₀,c₂,s₅,hwrite₂,⟨hw₁,hw₂⟩,⟨hafter₂,hbefore₂⟩,hwrites₂⟩ :=
    h.write line (T := side.effect s₃) (s := side.tick s₃) hn hB₂.le (by omega) hfuel false
  -- the data bits, whose deadlines count from the first reading
  obtain ⟨w,s₆,hbits,hwrites₃,htimes,hafter₃,hbefore₃⟩ :=
    h.putBits line (T := side.effect s + cyclePerBit.toNat + cyclePerBit.toNat) (s := s₅) hpace
      hfuel c 8 0 (by omega) (by omega)
  obtain ⟨hC₁,hC₂,hC₃,hC₄⟩ := h.tick s₆
  -- the stop bit
  obtain ⟨w₉,c₃,s₈,hwrite₄,⟨hw₃,hw₄⟩,⟨hafter₄,hbefore₄⟩,hwrites₄⟩ :=
    h.write line (T := side.effect s₆) (s := side.tick s₆) hn hC₂.le (by omega) hfuel true
  refine ⟨u, prepend w₀ fun k => if k = 8 then w₉ else w k, s₈, ?_, ?_, ?_⟩
  · simp only [Hardware.swUartPut8, hardware_cycleCntRead, count_add, hwrite₁, hwrite₂, hbits,
      hwrite₄, Option.bind_eq_bind, Option.bind_some]
  · rw [hwrites₄, tick_writes, hwrites₃, hwrites₂, tick_writes, hwrites₁, tick_writes, tick_writes,
      ← changes_frame]
    simp
  · exact frameTimes_of_bits (T := side.effect s + cyclePerBit.toNat + cyclePerBit.toNat)
      (by omega) (by omega) (by omega) (by omega) htimes (by omega) (by omega) (by omega)

theorem waitWhile_succ (v : Bool) :
    (side.hardware line).waitWhile v (fuel+1) s =
      if line (side.effect s) = v then (side.hardware line).waitWhile v fuel (side.tick s)
      else some (side.tick s) := rfl

/-- The loop that waits for the start bit ends within two operations of it. -/
theorem Within.waitFall (h : side.Within d) (hnow : s.now < T+d)
    (hhigh : ∀ x, s.now ≤ x → x < T → line x = true)
    (hlow : ∀ x, T ≤ x → x < T+2*d → line x = false)
    (hfuel : T < s.now + fuel) (hpos : 0 < fuel) :
    ∃ s', (side.hardware line).waitWhile true fuel s = some s' ∧ T < s'.now ∧
      s'.now < T + 2*d := by
  induction fuel generalizing s with
  | zero => exact absurd hpos (Nat.lt_irrefl 0)
  | succ fuel ih =>
    obtain ⟨hlo,hlt,hend,hend'⟩ := h.tick s
    rw [waitWhile_succ]
    by_cases hx : side.effect s < T
    · rw [if_pos (hhigh _ hlo hx)]
      exact ih (by omega) (fun x hxlo hxhi => hhigh x (by omega) hxhi) (by omega) (by omega)
    · rw [if_neg (by rw [hlow _ (by omega) (by omega)]; exact Bool.false_ne_true)]
      exact ⟨_, rfl, by omega, by omega⟩

/-- One more bit of a number. -/
theorem mod_or_bit (n i : ℕ) : n % 2^i ||| (n.testBit i).toNat <<< i = n % 2^(i+1) := by
  apply Nat.eq_of_testBit_eq
  intro j
  rw [Nat.testBit_or, Nat.testBit_mod_two_pow, Nat.testBit_mod_two_pow, Nat.testBit_shiftLeft]
  rcases Nat.lt_trichotomy j i with hj | rfl | hj
  · simp [hj, hj.le, Nat.lt_succ_of_lt hj, Nat.not_le_of_lt hj]
  · cases hb : n.testBit j <;> simp
  · have hpow : 2^1 ≤ 2^(j-i) := Nat.pow_le_pow_right Nat.two_pos (by omega)
    have hzero : (n.testBit i).toNat.testBit (j-i) = false :=
      Nat.testBit_lt_two_pow ((Bool.toNat_lt _).trans_le hpow)
    simp [hzero, Nat.not_lt_of_lt hj, Nat.not_lt_of_le (Nat.succ_le_of_lt hj)]

/-- Sample by sample, the bits of a byte. -/
theorem Within.getBits (h : side.Within d) (hpace : Paced d cyclePerBit)
    (hfuel : cyclePerBit.toNat < fuel) (c n i : ℕ) (hT : T < s.now) (hnow : s.now < T + 2*d)
    (hline : ∀ k < n, ∀ x, T + k*cyclePerBit.toNat < x → x < T + k*cyclePerBit.toNat + 3*d →
      line x = c.testBit (i+k)) :
    ∃ s', (side.hardware line).getBits fuel cyclePerBit n i (side.count T) (c % 2^i) s =
        some (c % 2^(i+n), s') ∧ T + n*cyclePerBit.toNat < s'.now := by
  have hslow := hpace.slow
  induction n generalizing i T s with
  | zero => exact ⟨s, rfl, by omega⟩
  | succ n ih =>
    obtain ⟨hlo,hlt,hend,_⟩ := h.tick s
    have hbit : line (side.effect s) = c.testBit i :=
      hline 0 (Nat.succ_pos n) _ (by omega) (by omega)
    obtain ⟨c',s₁,hdelay,hafter,hbefore,_⟩ : ∃ c' s₁, (side.hardware line).delayNcycles fuel
        (side.count T) cyclePerBit (side.tick s) = some (c',s₁) ∧ _ :=
      h.delay hpace.fits (by omega) (by omega) (by omega) (by omega)
    have hadd : ∀ k, i+1+k = i+(k+1) := by omega
    have hrest : ∀ k < n, ∀ x, T + cyclePerBit.toNat + k*cyclePerBit.toNat < x →
        x < T + cyclePerBit.toNat + k*cyclePerBit.toNat + 3*d → line x = c.testBit (i+1+k) := by
      intro k hk x hxlo hxhi
      have hmul : (k+1)*cyclePerBit.toNat = k*cyclePerBit.toNat + cyclePerBit.toNat :=
        Nat.succ_mul k _
      rw [hadd]
      exact hline (k+1) (by omega) x (by omega) (by omega)
    obtain ⟨s₂,hbits,hafter'⟩ := ih (i+1) hafter hbefore hrest
    refine ⟨s₂, ?_, ?_⟩
    · simp only [Hardware.getBits, hardware_gpioRead, hbit, mod_or_bit, hdelay, count_add,
        Option.bind_eq_bind, Option.bind_some]
      rw [hbits, hadd]
    · rw [Nat.succ_mul]
      omega

/-- `sw_uart_get8` reads a frame when its first read comes before the start bit. -/
theorem Within.get8 {t t' u : ℕ} {w : ℕ → ℕ} {c : UInt8} (h : side.Within d)
    (hpace : Paced d cyclePerBit) (hfuel : cyclePerBit.toNat < fuel) (hwait : w 0 < fuel)
    (htimes : FrameTimes d cyclePerBit.toNat t t' u w) (hcells : Cells line s.now c w)
    (hfirst : side.effect s < w 0) :
    ∃ s', (side.hardware line).swUartGet8 fuel cyclePerBit s = some (c.toNat, s') ∧
      w 9 ≤ s'.now := by
  have hslow := hpace.slow
  have hhalf : (cyclePerBit/2).toNat = cyclePerBit.toNat/2 := BitVec.toNat_udiv
  obtain ⟨hlo,hlt,hend,hend'⟩ := h.tick s
  have hearly₁ := htimes.early 1 le_rfl (by omega)
  have hlate₉ := htimes.late 9 (by omega) le_rfl
  -- the line is high, so that the first loop ends at once
  have hhigh : (side.hardware line).waitWhile false fuel s = some (side.tick s) := by
    obtain ⟨fuel,rfl⟩ := Nat.exists_eq_add_of_lt (Nat.zero_lt_of_lt hfuel)
    rw [waitWhile_succ, if_neg]
    rw [hcells.high _ hlo hfirst]
    exact Bool.true_eq_false_eq_False
  have hlow : ∀ x, w 0 ≤ x → x < w 0 + 2*d → line x = false := fun x hxlo hxhi =>
    hcells.cell 0 (Nat.zero_le 8) x hxlo (show x < w 1 by omega)
  obtain ⟨s₂,hfall,hafter₂,hbefore₂⟩ :
      ∃ s₂, (side.hardware line).waitWhile true fuel (side.tick s) = some s₂ ∧ _ :=
    h.waitFall (by omega) (fun x hxlo hxhi => hcells.high x (by omega) hxhi) hlow (by omega)
      (by omega)
  obtain ⟨h₁,h₂,h₃,h₄⟩ := h.tick s₂
  -- one and a half bits behind the start bit
  obtain ⟨c₁,s₄,hdelay₁,hafter₄,hbefore₄,_⟩ : ∃ c' s₄, (side.hardware line).delayNcycles fuel
      (side.count (side.effect s₂)) (cyclePerBit/2) (side.tick s₂) = some (c',s₄) ∧ _ :=
    h.delay (by omega) h₂.le (by omega) (by omega) (by omega)
  obtain ⟨c₂,s₅,hdelay₂,hafter₅,hbefore₅,_⟩ : ∃ c' s₅, (side.hardware line).delayNcycles fuel
      (side.count (side.effect s₂ + (cyclePerBit/2).toNat)) cyclePerBit s₄ = some (c',s₅) ∧ _ :=
    h.delay hpace.fits hafter₄.le (by omega) (by omega) (by omega)
  have hline : ∀ k < 8, ∀ x,
      side.effect s₂ + (cyclePerBit/2).toNat + cyclePerBit.toNat + k*cyclePerBit.toNat < x →
      x < side.effect s₂ + (cyclePerBit/2).toNat + cyclePerBit.toNat + k*cyclePerBit.toNat + 3*d →
        line x = c.toNat.testBit (0+k) := by
    intro k hk x hxlo hxhi
    have hlate := htimes.late (k+1) (by omega) (by omega)
    have hearly := htimes.early (k+1+1) (by omega) (by omega)
    rw [Nat.succ_mul] at hlate
    rw [Nat.succ_mul, Nat.succ_mul] at hearly
    rw [hcells.cell (k+1) (by omega) x (by omega) (by omega), frameBit, if_neg (by omega),
      if_neg (by omega), Nat.zero_add, Nat.add_sub_cancel]
  obtain ⟨s₆,hbits,hafter₆⟩ := h.getBits hpace hfuel c.toNat 8 0 hafter₅ hbefore₅ hline
  rw [Nat.pow_zero, Nat.mod_one, Nat.zero_add, Nat.mod_eq_of_lt c.toNat_lt] at hbits
  refine ⟨s₆, ?_, by omega⟩
  simp only [Hardware.swUartGet8, Hardware.sampleByte, hhigh, hfall, hardware_cycleCntRead,
    hdelay₁, count_add, hdelay₂, Option.bind_eq_bind, Option.bind_some]
  exact hbits

end Side

end DistributedPis
