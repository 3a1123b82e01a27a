import DistributedPis.Library.Words

/-! Formatted output (`printk.c`). A panic gives no output, nor does an argument of another type than
its conversion reads. -/
namespace DistributedPis
open Library

/-- The digits of `emit_val`, for all of its bases. -/
def hexDigits : List UInt8 := [48,49,50,51,52,53,54,55,56,57,97,98,99,100,101,102]

/-- The loop that fills `num`, which has room for so many digits more. -/
def emitLoop (base : ℕ) : (room : ℕ) → ℕ → Option (List UInt8)
  | 0, _ => none
  | room+1, u =>
    if u/base = 0 then some [hexDigits.getD (u % base) 0]
    else (emitLoop base room (u/base)).map (hexDigits.getD (u % base) 0 :: ·)

def emitVal (base : ℕ) (u : Word) : Option (List UInt8) :=
  if base = 2 ∨ base = 10 ∨ base = 16 then (emitLoop base 33 u.toNat).map List.reverse else none

inductive PrintArg where
  | word (u : Word)
  | dword (x : BitVec 64)
  | str (s : List UInt8)

/-- The conversions of one character, with the argument that each reads. -/
def convert (d : UInt8) : PrintArg → Option (List UInt8)
  | .word u =>
    if d = 98 then emitVal 2 u  -- %b
    else if d = 117 then emitVal 10 u  -- %u
    else if d = 99 then some [UInt8.ofNat u.toNat]  -- %c
    else if d = 120 ∨ d = 112 then do  -- %x and %p
      let text ← emitVal 16 u
      pure (48::120::text)
    else if d = 100 then  -- %d
      if u.toInt < 0 then do
        let text ← emitVal 10 (-u)
        pure (45::text)
      else emitVal 10 u
    else none
  | .dword _ => none
  | .str s => if d = 115 then some s else none  -- %s

/-- `%llx`, in two halves. -/
def emitLong : PrintArg → Option (List UInt8)
  | .dword x => do
    let hi := (x >>> 32).setWidth 32
    let lo := x.setWidth 32
    let upper ← if hi ≠ 0 then emitVal 16 hi else some []
    let lower ← emitVal 16 lo
    pure (48::120::(upper ++ lower))
  | _ => none

/-- The text that is put out. -/
def vprintk : (fmt : List UInt8) → List PrintArg → Option (List UInt8)
  | [], _ => some []
  | c::fmt, ap =>
    if c ≠ 37 then do
      let text ← vprintk fmt ap
      pure (c::text)
    else
      match fmt, ap with
      | d::fmt, a::ap =>
        if d = 108 then
          match fmt with
          | e::f::fmt =>
            if e = 108 ∧ f = 120 then do
              let val ← emitLong a
              let text ← vprintk fmt ap
              pure (val ++ text)
            else none
          | _ => none
        else do
          let val ← convert d a
          let text ← vprintk fmt ap
          pure (val ++ text)
      | _, _ => none

/-- What a format is made of, with the arguments. -/
inductive Piece where
  | text (c : UInt8)
  | bin (u : Word)
  | dec (u : Word)
  | char (u : Word)
  | hex (u : Word)
  | ptr (u : Word)
  | int (v : Word)
  | long (x : BitVec 64)
  | str (s : List UInt8)

/-- A number as it is written, without leading zeros. -/
def numeral (base n : ℕ) : List UInt8 := (Nat.toDigits base n).map fun c => UInt8.ofNat c.toNat

namespace Piece

def fmt : Piece → List UInt8
  | text c => [c]
  | bin _ => [37,98]
  | dec _ => [37,117]
  | char _ => [37,99]
  | hex _ => [37,120]
  | ptr _ => [37,112]
  | int _ => [37,100]
  | long _ => [37,108,108,120]
  | str _ => [37,115]

def args : Piece → List PrintArg
  | text _ => []
  | bin u | dec u | char u | hex u | ptr u | int u => [.word u]
  | long x => [.dword x]
  | str s => [.str s]

/-- What should be put out. -/
def out : Piece → List UInt8
  | text c => [c]
  | char u => [UInt8.ofNat u.toNat]
  | bin u => numeral 2 u.toNat
  | dec u => numeral 10 u.toNat
  | hex u | ptr u => 48::120::numeral 16 u.toNat
  | int v => if v.toInt < 0 then 45::numeral 10 v.toInt.natAbs else numeral 10 v.toInt.natAbs
  | long x => 48::120::numeral 16 x.toNat
  | str s => s

/-- A percent sign is no text. -/
def Valid : Piece → Prop
  | text c => c ≠ 37
  | _ => True

/-- The lower half of a long number has eight digits, or there is no upper half. -/
def Full : Piece → Prop
  | long x => x.toNat < 2^32 ∨ 2^28 ≤ x.toNat % 2^32
  | _ => True

end Piece

section Digits
variable {base room u : ℕ}

theorem hexDigits_eq {d : ℕ} (h : d < 16) :
    hexDigits.getD d 0 = UInt8.ofNat (Nat.digitChar d).toNat := by
  have hall : ∀ n : Fin 16, hexDigits.getD n 0 = UInt8.ofNat (Nat.digitChar n).toNat := by decide
  exact hall ⟨d, h⟩

/-- The loop fills in the numeral from its end. -/
theorem emitLoop_eq (hbase : 1 < base) (hbase' : base ≤ 16) (hu : u < base^room)
    (hroom : 0 < room) :
    emitLoop base room u = some (numeral base u).reverse := by
  induction room generalizing u with
  | zero => omega
  | succ room ih =>
    have hdigit := hexDigits_eq ((Nat.mod_lt u (by omega : 0 < base)).trans_le hbase')
    have hlast : u/base = 0 ↔ u < base := by
      rw [Nat.div_eq_zero_iff]
      omega
    rw [emitLoop, numeral, Nat.toDigits_eq_if hbase, hdigit]
    by_cases hlt : u < base
    · rw [if_pos (hlast.mpr hlt), if_pos hlt, Nat.mod_eq_of_lt hlt]
      rfl
    · have hpos : 0 < room := by
        by_contra hzero
        rw [Nat.eq_zero_of_not_pos hzero] at hu
        simp at hu
        omega
      have hdiv : u/base < base^room := by
        rw [Nat.div_lt_iff_lt_mul (by omega), ← Nat.pow_succ]
        exact hu
      rw [if_neg (mt hlast.mp hlt), if_neg hlt, ih hdiv hpos, Option.map_some, List.map_append,
        List.reverse_append]
      rfl

/-- Every number fits into the array. -/
theorem emitVal_eq (u : Word) (hbase : base = 2 ∨ base = 10 ∨ base = 16) :
    emitVal base u = some (numeral base u.toNat) := by
  have hu : u.toNat < base^33 := by
    have hle : 2^33 ≤ base^33 := Nat.pow_le_pow_left (by omega) 33
    have hlt := u.isLt
    omega
  rw [emitVal, if_pos hbase, emitLoop_eq (by omega) (by omega) hu (by omega), Option.map_some,
    List.reverse_reverse]

/-- The length of a numeral. -/
theorem numeral_length_le {k : ℕ} (hbase : 1 < base) (hk : 0 < k) :
    (numeral base u).length ≤ k ↔ u < base^k := by
  rw [numeral, List.length_map, Nat.length_toDigits_le_iff hbase hk]

/-- The last digit of a numeral. -/
theorem numeral_step (hbase : 1 < base) (h : base ≤ u) :
    numeral base u = numeral base (u/base) ++ numeral base (u % base) := by
  have hlt := Nat.mod_lt u (by omega : 0 < base)
  rw [numeral, Nat.toDigits_of_base_le hbase h, List.map_append, ← numeral]
  congr 1
  rw [numeral, Nat.toDigits_of_lt_base hlt]

theorem numeral_pos (base u : ℕ) : 0 < (numeral base u).length := by
  rw [numeral, List.length_map]
  exact Nat.length_toDigits_pos

/-- A numeral in two parts, the lower one with all of its digits. -/
theorem numeral_append {hi lo k : ℕ} (hbase : 1 < base) (hhi : hi ≠ 0) (hlo : lo < base^k)
    (hfull : (numeral base lo).length = k) :
    numeral base (hi*base^k + lo) = numeral base hi ++ numeral base lo := by
  have hpos : 0 < base := by omega
  induction k generalizing lo with
  | zero =>
    have := numeral_pos base lo
    omega
  | succ k ih =>
    have hsplit : hi*base^(k+1) + lo = base*(hi*base^k) + lo := by
      rw [Nat.pow_succ]
      ring
    have hdiv : (hi*base^(k+1) + lo) / base = hi*base^k + lo/base := by
      rw [hsplit, Nat.mul_add_div hpos]
    have hmod : (hi*base^(k+1) + lo) % base = lo % base := by
      rw [hsplit, Nat.mul_add_mod]
    have hle : base ≤ hi*base^(k+1) + lo := by
      have hone : 1 ≤ hi*base^k := Nat.mul_pos (by omega) (Nat.pow_pos hpos)
      rw [hsplit]
      nlinarith
    rw [numeral_step hbase hle, hdiv, hmod]
    rcases Nat.eq_zero_or_pos k with rfl | hk
    · rw [Nat.zero_add, Nat.pow_one] at hlo
      rw [Nat.pow_zero, Nat.mul_one, Nat.div_eq_of_lt hlo, Nat.add_zero, Nat.mod_eq_of_lt hlo]
    · have hlong : base ≤ lo := by
        by_contra hshort
        have hlen := (numeral_length_le (k := 1) hbase Nat.one_pos).mpr
          (by rw [Nat.pow_one]; exact Nat.lt_of_not_le hshort)
        omega
      have hstep := numeral_step hbase hlong
      have hone : (numeral base (lo % base)).length = 1 := by
        rw [numeral, Nat.toDigits_of_lt_base (Nat.mod_lt lo hpos)]
        rfl
      have hlen := congrArg List.length hstep
      rw [List.length_append, hone, hfull] at hlen
      have hdown : lo/base < base^k := by
        rw [Nat.div_lt_iff_lt_mul hpos, ← Nat.pow_succ]
        exact hlo
      rw [ih hdown (by omega), hstep, List.append_assoc]

/-- All digits of the lower part count. -/
theorem numeral_length_ge {hi lo k : ℕ} (hbase : 1 < base) (hhi : hi ≠ 0) (hk : 0 < k) :
    (numeral base hi).length + k ≤ (numeral base (hi*base^k + lo)).length := by
  by_contra hlt
  have hpos := numeral_pos base hi
  obtain ⟨m,hm⟩ := Nat.exists_eq_add_of_lt hpos
  have hlen := (numeral_length_le (k := m+k) hbase (by omega)).mp
    (show (numeral base (hi*base^k + lo)).length ≤ m+k by omega)
  have hup : hi < base^m := by
    by_contra hle
    have hmul := Nat.mul_le_mul_right (base^k) (Nat.le_of_not_lt hle)
    rw [Nat.pow_add] at hlen
    omega
  rcases Nat.eq_zero_or_pos m with rfl | hmpos
  · simp at hup
    exact hhi hup
  · have := (numeral_length_le hbase hmpos).mpr hup
    omega

/-- What is put out for a long number. -/
theorem emitLong_eq (x : BitVec 64) : emitLong (.dword x) = some (48::120::
    ((if x.toNat < 2^32 then [] else numeral 16 (x.toNat / 2^32)) ++
      numeral 16 (x.toNat % 2^32))) := by
  have hx := x.isLt
  have hhi : ((x >>> 32).setWidth 32).toNat = x.toNat / 2^32 := by
    rw [BitVec.toNat_setWidth, BitVec.toNat_ushiftRight, Nat.shiftRight_eq_div_pow,
      Nat.mod_eq_of_lt (by omega)]
  have hzero : (x >>> 32).setWidth 32 ≠ 0 ↔ ¬x.toNat < 2^32 := by
    rw [ne_eq, ← BitVec.toNat_inj, hhi]
    change ¬_ = 0 ↔ _
    omega
  have hlo : (x.setWidth 32).toNat = x.toNat % 2^32 := BitVec.toNat_setWidth ..
  by_cases hbig : x.toNat < 2^32
  · rw [if_pos hbig]
    have hnot := mt hzero.mp (not_not.mpr hbig)
    simp only [emitLong, if_neg hnot, emitVal_eq _ (.inr (.inr rfl)), hlo, Option.bind_eq_bind,
      Option.bind_some, Option.pure_def]
  · rw [if_neg hbig]
    simp only [emitLong, if_pos (hzero.mpr hbig), emitVal_eq _ (.inr (.inr rfl)), hhi, hlo,
      Option.bind_eq_bind, Option.bind_some, Option.pure_def]

end Digits

namespace Piece
variable {p : Piece} {ps : List Piece} {fmt' : List UInt8} {ap : List PrintArg}

/-- What is put out for a piece. -/
def printed : Piece → List UInt8
  | long x => 48::120::((if x.toNat < 2^32 then [] else numeral 16 (x.toNat / 2^32)) ++
      numeral 16 (x.toNat % 2^32))
  | p => p.out

/-- The sign of the smallest number is taken away like that of the others. -/
theorem neg_natAbs {v : Word} (h : v.toInt < 0) : (-v).toNat = v.toInt.natAbs := by
  have hlt := v.isLt
  rw [BitVec.toInt_eq_toNat_cond] at h ⊢
  rw [BitVec.toNat_neg]
  split_ifs at h ⊢ with hsmall
  · omega
  · omega

theorem pos_natAbs {v : Word} (h : ¬v.toInt < 0) : v.toNat = v.toInt.natAbs := by
  have hlt := v.isLt
  rw [BitVec.toInt_eq_toNat_cond] at h ⊢
  split_ifs at h ⊢ with hsmall
  · omega
  · omega

theorem vprintk_convert {d : UInt8} {a : PrintArg} {val : List UInt8} (hd : d ≠ 108)
    (h : convert d a = some val) (fmt' : List UInt8) (ap : List PrintArg) :
    vprintk (37::d::fmt') (a::ap) = (vprintk fmt' ap).map (val ++ ·) := by
  rw [vprintk.eq_def]
  dsimp only
  rw [if_neg (not_not.mpr rfl), if_neg hd, h, Option.map_eq_bind]
  rfl

theorem convert_bin (u : Word) : convert 98 (.word u) = some (bin u).printed :=
  emitVal_eq u (.inl rfl)

theorem convert_dec (u : Word) : convert 117 (.word u) = some (dec u).printed :=
  emitVal_eq u (.inr (.inl rfl))

theorem convert_char (u : Word) : convert 99 (.word u) = some (char u).printed := rfl

theorem convert_hex (u : Word) : convert 120 (.word u) = some (hex u).printed := by
  change (emitVal 16 u).bind _ = _
  rw [emitVal_eq u (.inr (.inr rfl))]
  rfl

theorem convert_ptr (u : Word) : convert 112 (.word u) = some (ptr u).printed := convert_hex u

theorem convert_int (v : Word) : convert 100 (.word v) = some (int v).printed := by
  change (if v.toInt < 0 then (emitVal 10 (-v)).bind _ else emitVal 10 v) = some (ite _ _ _)
  rw [emitVal_eq _ (.inr (.inl rfl)), emitVal_eq _ (.inr (.inl rfl))]
  split
  · rename_i hneg
    rw [neg_natAbs hneg]
    rfl
  · rename_i hpos
    rw [pos_natAbs hpos]

theorem convert_str (s : List UInt8) : convert 115 (.str s) = some (str s).printed := rfl

theorem vprintk_text {c : UInt8} (hc : c ≠ 37) (fmt' : List UInt8) (ap : List PrintArg) :
    vprintk (c::fmt') ap = (vprintk fmt' ap).map ([c] ++ ·) := by
  rw [vprintk.eq_def]
  dsimp only
  rw [if_pos hc, Option.map_eq_bind]
  rfl

theorem vprintk_long (x : BitVec 64) (fmt' : List UInt8) (ap : List PrintArg) :
    vprintk (37::108::108::120::fmt') (.dword x::ap) =
      (vprintk fmt' ap).map ((long x).printed ++ ·) := by
  rw [vprintk.eq_def]
  dsimp only
  rw [if_neg (not_not.mpr rfl), if_pos rfl, if_pos ⟨rfl,rfl⟩, emitLong_eq, Option.map_eq_bind]
  rfl

/-- One piece of a format. -/
theorem vprintk_piece (p : Piece) (h : p.Valid) (fmt' : List UInt8) (ap : List PrintArg) :
    vprintk (p.fmt ++ fmt') (p.args ++ ap) = (vprintk fmt' ap).map (p.printed ++ ·) := by
  cases p with
  | text c => exact vprintk_text h fmt' ap
  | bin u => exact vprintk_convert (by decide) (convert_bin u) fmt' ap
  | dec u => exact vprintk_convert (by decide) (convert_dec u) fmt' ap
  | char u => exact vprintk_convert (by decide) (convert_char u) fmt' ap
  | hex u => exact vprintk_convert (by decide) (convert_hex u) fmt' ap
  | ptr u => exact vprintk_convert (by decide) (convert_ptr u) fmt' ap
  | int v => exact vprintk_convert (by decide) (convert_int v) fmt' ap
  | long x => exact vprintk_long x fmt' ap
  | str s => exact vprintk_convert (by decide) (convert_str s) fmt' ap

/-- A long number loses the zeros of its lower half. -/
theorem printed_long (x : BitVec 64) : (long x).printed.length ≤ (long x).out.length ∧
    ((long x).printed = (long x).out ↔ (long x).Full) := by
  have hx : x.toNat = x.toNat / 2^32 * 16^8 + x.toNat % 2^32 := by
    have := Nat.div_add_mod x.toNat (2^32)
    omega
  have hlo : x.toNat % 2^32 < 16^8 := Nat.mod_lt _ (by omega)
  have height := (numeral_length_le (k := 8) (by omega) (by omega)).mpr hlo
  have hseven := @numeral_length_le 16 (x.toNat % 2^32) 7 (by omega) (by omega)
  simp only [printed, out, Full, List.length_cons, List.cons.injEq, true_and]
  by_cases hbig : x.toNat < 2^32
  · rw [if_pos hbig, List.nil_append, Nat.mod_eq_of_lt hbig]
    exact ⟨le_rfl, iff_of_true rfl (.inl hbig)⟩
  · have hhi : x.toNat / 2^32 ≠ 0 := by omega
    have hge : (numeral 16 (x.toNat / 2^32)).length + 8 ≤
        (numeral 16 (x.toNat / 2^32 * 16^8 + x.toNat % 2^32)).length :=
      numeral_length_ge (by omega) hhi (by omega)
    rw [← hx] at hge
    rw [if_neg hbig, List.length_append]
    refine ⟨by omega, ?_⟩
    constructor
    · intro heq
      have hlen := congrArg List.length heq
      rw [List.length_append] at hlen
      refine .inr ?_
      by_contra hsmall
      have := hseven.mpr (by omega)
      omega
    · rintro (hsmall | hfull)
      · exact absurd hsmall hbig
      · have hlen := mt hseven.mp (by omega)
        have happ : numeral 16 (x.toNat / 2^32 * 16^8 + x.toNat % 2^32) =
            numeral 16 (x.toNat / 2^32) ++ numeral 16 (x.toNat % 2^32) :=
          numeral_append (by omega) hhi hlo (by omega)
        rw [← happ, ← hx]

theorem printed_length_le (p : Piece) : p.printed.length ≤ p.out.length := by
  cases p with
  | long x => exact (printed_long x).1
  | _ => exact le_rfl

theorem printed_eq_iff (p : Piece) : p.printed = p.out ↔ p.Full := by
  cases p with
  | long x => exact (printed_long x).2
  | _ => exact iff_of_true rfl trivial

/-- What is put out for a format. -/
theorem vprintk_pieces (h : ∀ p ∈ ps, p.Valid) (rest : List PrintArg) :
    vprintk (ps.flatMap fmt) (ps.flatMap args ++ rest) = some (ps.flatMap printed) := by
  induction ps with
  | nil => rfl
  | cons p ps ih =>
    obtain ⟨hp,hps⟩ := List.forall_mem_cons.mp h
    rw [List.flatMap_cons, List.flatMap_cons, List.append_assoc, vprintk_piece p hp, ih hps]
    rfl

theorem printed_flatMap_length_le (ps : List Piece) :
    (ps.flatMap printed).length ≤ (ps.flatMap out).length := by
  induction ps with
  | nil => exact le_rfl
  | cons p ps ih =>
    have hp := p.printed_length_le
    simp only [List.flatMap_cons, List.length_append]
    omega

/-- Nothing that is lost is made up for by another piece. -/
theorem printed_flatMap_iff : ps.flatMap printed = ps.flatMap out ↔ ∀ p ∈ ps, p.Full := by
  induction ps with
  | nil => exact iff_of_true rfl fun p hp => absurd hp List.not_mem_nil
  | cons p ps ih =>
    rw [List.forall_mem_cons, ← ih, ← printed_eq_iff, List.flatMap_cons, List.flatMap_cons]
    constructor
    · intro h
      have hlen := congrArg List.length h
      have hp := p.printed_length_le
      have hps := printed_flatMap_length_le ps
      simp only [List.length_append] at hlen
      exact List.append_inj h (by omega)
    · rintro ⟨hp,hps⟩
      rw [hp, hps]

end Piece

/-- The pieces that a format and its arguments are read as. -/
structure ReadAs (fmt : List UInt8) (ap : List PrintArg) (text : List UInt8) (ps : List Piece) :
    Prop where
  valid : ∀ p ∈ ps, p.Valid
  fmt : fmt = ps.flatMap Piece.fmt
  args : ps.flatMap Piece.args <+: ap
  text : text = ps.flatMap Piece.printed

section Accepted
variable {fmt text : List UInt8} {ap : List PrintArg} {ps : List Piece}

theorem ReadAs.cons (h : ReadAs fmt ap text ps) {p : Piece} (hp : p.Valid) :
    ReadAs (p.fmt ++ fmt) (p.args ++ ap) (p.printed ++ text) (p::ps) where
  valid := List.forall_mem_cons.mpr ⟨hp, h.valid⟩
  fmt := by rw [List.flatMap_cons, ← h.fmt]
  args := by
    rw [List.flatMap_cons]
    exact (List.prefix_append_right_inj _).mpr h.args
  text := by rw [List.flatMap_cons, ← h.text]

/-- Every conversion is one of a piece. -/
theorem convert_some {d : UInt8} {a : PrintArg} {val : List UInt8} (h : convert d a = some val) :
    ∃ p : Piece, p.Valid ∧ p.fmt = [37,d] ∧ p.args = [a] ∧ p.printed = val := by
  have hval {p : Piece} (hp : convert d a = some p.printed) : p.printed = val :=
    Option.some.inj (hp.symm.trans h)
  cases a with
  | word u =>
    by_cases hb : d = 98
    · subst hb
      exact ⟨.bin u, trivial, rfl, rfl, hval (Piece.convert_bin u)⟩
    by_cases hu : d = 117
    · subst hu
      exact ⟨.dec u, trivial, rfl, rfl, hval (Piece.convert_dec u)⟩
    by_cases hc : d = 99
    · subst hc
      exact ⟨.char u, trivial, rfl, rfl, hval (Piece.convert_char u)⟩
    by_cases hx : d = 120
    · subst hx
      exact ⟨.hex u, trivial, rfl, rfl, hval (Piece.convert_hex u)⟩
    by_cases hp : d = 112
    · subst hp
      exact ⟨.ptr u, trivial, rfl, rfl, hval (Piece.convert_ptr u)⟩
    by_cases hd : d = 100
    · subst hd
      exact ⟨.int u, trivial, rfl, rfl, hval (Piece.convert_int u)⟩
    · simp [convert, hb, hu, hc, hx, hp, hd] at h
  | dword x => cases h
  | str s =>
    by_cases hs : d = 115
    · subst hs
      exact ⟨.str s, trivial, rfl, rfl, hval (Piece.convert_str s)⟩
    · simp [convert, hs] at h

/-- What is accepted is a format with its arguments, and it is put out piece by piece. -/
theorem vprintk_some (h : vprintk fmt ap = some text) : ∃ ps, ReadAs fmt ap text ps := by
  induction hn : fmt.length using Nat.strong_induction_on generalizing fmt ap text with
  | _ n ih =>
    rcases fmt with _ | ⟨c,fmt⟩
    · cases h
      exact ⟨[], fun p hp => absurd hp List.not_mem_nil, rfl, List.nil_prefix, rfl⟩
    rw [List.length_cons] at hn
    by_cases hc : c ≠ 37
    · rw [Piece.vprintk_text hc] at h
      obtain ⟨rest,hrest,rfl⟩ := Option.map_eq_some_iff.mp h
      obtain ⟨ps,hps⟩ := ih fmt.length (by omega) hrest rfl
      exact ⟨_, hps.cons (p := .text c) hc⟩
    rw [not_not] at hc
    subst hc
    rw [vprintk.eq_def] at h
    dsimp only at h
    rw [if_neg (not_not.mpr rfl)] at h
    rcases fmt with _ | ⟨d,fmt⟩
    · cases h
    rcases ap with _ | ⟨a,ap⟩
    · cases h
    dsimp only at h
    by_cases hd : d = 108
    · subst hd
      rw [if_pos rfl] at h
      rcases fmt with _ | ⟨e,_ | ⟨f,fmt⟩⟩
      · cases h
      · cases h
      dsimp only at h
      by_cases hlx : e = 108 ∧ f = 120
      · obtain ⟨rfl,rfl⟩ := hlx
        rw [if_pos ⟨rfl,rfl⟩] at h
        obtain ⟨val,hval,h⟩ := Option.bind_eq_some_iff.mp h
        obtain ⟨rest,hrest,h⟩ := Option.bind_eq_some_iff.mp h
        simp only [List.length_cons] at hn
        obtain ⟨ps,hps⟩ := ih fmt.length (by omega) hrest rfl
        obtain rfl := Option.some.inj h
        cases a with
        | word u => cases hval
        | str s => cases hval
        | dword x =>
          rw [emitLong_eq, Option.some.injEq] at hval
          rw [← hval]
          exact ⟨_, hps.cons (p := .long x) trivial⟩
      · rw [if_neg hlx] at h
        cases h
    · rw [if_neg hd] at h
      obtain ⟨val,hval,h⟩ := Option.bind_eq_some_iff.mp h
      obtain ⟨rest,hrest,h⟩ := Option.bind_eq_some_iff.mp h
      rw [List.length_cons] at hn
      obtain ⟨ps,hps⟩ := ih fmt.length (by omega) hrest rfl
      obtain ⟨p,hp,hfmt,hargs,hprinted⟩ := convert_some hval
      obtain rfl := Option.some.inj h
      have hcons := hps.cons hp
      rw [hfmt, hargs, hprinted] at hcons
      exact ⟨_, hcons⟩

end Accepted

/-- What is accepted is exactly a format made of pieces, with their arguments in front of others. -/
theorem vprintk_isSome_iff (fmt : List UInt8) (ap : List PrintArg) :
    (vprintk fmt ap).isSome = true ↔ ∃ ps : List Piece, (∀ p ∈ ps, p.Valid) ∧
      fmt = ps.flatMap Piece.fmt ∧ ps.flatMap Piece.args <+: ap := by
  rw [Option.isSome_iff_exists]
  constructor
  · rintro ⟨text,h⟩
    obtain ⟨ps,hps⟩ := vprintk_some h
    exact ⟨ps, hps.valid, hps.fmt, hps.args⟩
  · rintro ⟨ps,hvalid,rfl,rest,rfl⟩
    exact ⟨_, Piece.vprintk_pieces hvalid rest⟩

/-- All of it is printed in full, except for the zeros in the middle of a long number. -/
theorem vprintk_full_iff (ps : List Piece) (h : ∀ p ∈ ps, p.Valid) (rest : List PrintArg) :
    vprintk (ps.flatMap Piece.fmt) (ps.flatMap Piece.args ++ rest) = some (ps.flatMap Piece.out) ↔
      ∀ p ∈ ps, p.Full := by
  rw [Piece.vprintk_pieces h, Option.some.injEq, Piece.printed_flatMap_iff]

/-- A long number with zeros in the middle, for which neither side holds. -/
theorem vprintk_full_iff_long :
    vprintk ([Piece.long 0x100000002].flatMap Piece.fmt)
        ([Piece.long 0x100000002].flatMap Piece.args ++ []) =
      some ([Piece.long 0x100000002].flatMap Piece.out) ↔
      ∀ p ∈ [Piece.long 0x100000002], p.Full :=
  vprintk_full_iff [.long 0x100000002] (fun p hp => by rw [List.mem_singleton.mp hp]; trivial) []

end DistributedPis
