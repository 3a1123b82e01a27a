import Mathlib

/-! Reading a job from the software UART (`sw_uart_gets`). The test for the stop sequence runs
before the byte just read is stored, on the bytes that end with the one which is in the buffer
from before. -/
namespace DistributedPis

/-- The search for the start sequence, `i` bytes of which have just been read; it ends in front of
the rest of the line. A `char` is unsigned on the Pi, so no byte compares equal to -1. -/
def findStart (start : List UInt8) : ℕ → List UInt8 → Option (List UInt8)
  | _, [] => none
  | i, c::line =>
    if start[i]? = some c then
      if i+1 = start.length then some line else findStart start (i+1) line
    else findStart start 0 line

/-- The test for the stop sequence when `c` has been read and `i` bytes are stored. -/
def AtStop (stop : List UInt8) (buf : ℕ → UInt8) (i : ℕ) (c : UInt8) : Prop :=
  c = stop.getD 0 0 ∧ stop.length-1 ≤ i ∧
    ∀ k < stop.length, buf (i+1-stop.length+k) = stop.getD k 0

instance (stop : List UInt8) (buf : ℕ → UInt8) (i : ℕ) (c : UInt8) :
    Decidable (AtStop stop buf i c) := inferInstanceAs (Decidable (_ ∧ _ ∧ _))

/-- The number of bytes read and the buffer; there is no result while the loop waits. -/
def readUntil (stop : List UInt8) (buflen : ℕ) :
    ℕ → (ℕ → UInt8) → List UInt8 → Option (ℕ × (ℕ → UInt8))
  | i, buf, [] => if i < buflen-1 then none else some (i, Function.update buf i 0)
  | i, buf, c::line =>
    if i < buflen-1 then
      if AtStop stop buf i c then some (i, Function.update buf i 0)
      else readUntil stop buflen (i+1) (Function.update buf i c) line
    else some (i, Function.update buf i 0)

def swUartGets (line start stop : List UInt8) (buf : ℕ → UInt8) (buflen : ℕ) :
    Option (ℕ × (ℕ → UInt8)) :=
  (findStart start 0 line).bind (readUntil stop buflen 0 buf)

/-- The call returns the length of `p` and leaves `p` in the buffer. -/
def Extracts (r : Option (ℕ × (ℕ → UInt8))) (p : List UInt8) : Prop :=
  ∃ buf, r = some (p.length, buf) ∧ ∀ k (h : k < p.length), buf k = p[k]

/-- `tail` is what follows the start sequence on the line, when the bytes in front of the sequence
only begin it and break off, any number of times. -/
def Marked (start line tail : List UInt8) : Prop :=
  ∃ tries : List (ℕ × UInt8), (∀ t ∈ tries, t.1 < start.length ∧ start[t.1]? ≠ some t.2) ∧
    line = tries.flatMap (fun t => start.take t.1 ++ [t.2]) ++ start ++ tail

section Search
variable {start line tail l l' : List UInt8} {c d : UInt8} {i j : ℕ}

lemma getElem?_broken (hi : i < start.length) : (start.take i ++ c::l)[i]? = some c := by
  rw [List.getElem?_append_right (by simp), List.length_take, min_eq_left hi.le, Nat.sub_self]
  rfl

lemma getElem?_before (hj : j < start.length) (h : i < j) :
    (start.take j ++ c::l)[i]? = start[i]? := by
  rw [List.getElem?_append_left (by simp; omega), List.getElem?_take_of_lt h]

/-- Where the sequence breaks off for the first time is determined. -/
lemma broken_unique (hi : i < start.length) (hj : j < start.length) (hc : start[i]? ≠ some c)
    (hd : start[j]? ≠ some d) (h : start.take i ++ c::l = start.take j ++ d::l') :
    i = j ∧ l = l' := by
  rcases lt_trichotomy i j with hij | rfl | hij
  · have hget := congrArg (·[i]?) h
    simp only [getElem?_broken hi, getElem?_before hj hij] at hget
    exact absurd hget.symm hc
  · exact ⟨rfl, (List.cons.inj (List.append_cancel_left h)).2⟩
  · have hget := congrArg (·[j]?) h
    simp only [getElem?_broken hj, getElem?_before hi hij] at hget
    exact absurd hget hd

lemma broken_ne (hi : i < start.length) (hc : start[i]? ≠ some c) :
    start.take i ++ c::l ≠ start ++ l' := by
  intro h
  have hget := congrArg (·[i]?) h
  simp only [getElem?_broken hi, List.getElem?_append_left hi] at hget
  exact hc hget.symm

lemma marked_broken (hi : i < start.length) (hc : start[i]? ≠ some c) :
    Marked start (start.take i ++ c::l) tail ↔ Marked start l tail := by
  constructor
  · rintro ⟨tries,htries,hline⟩
    cases tries with
    | nil => exact absurd hline (by simpa using broken_ne hi hc)
    | cons t tries =>
      obtain ⟨hj,hd⟩ := htries t (List.mem_cons_self ..)
      rw [List.flatMap_cons, List.append_assoc, List.append_assoc, List.append_assoc,
        List.singleton_append] at hline
      obtain ⟨-,hrest⟩ := broken_unique hi hj hc hd hline
      exact ⟨tries, fun t ht => htries t (List.mem_cons_of_mem _ ht), by simpa using hrest⟩
  · rintro ⟨tries,htries,rfl⟩
    exact ⟨(i,c)::tries, List.forall_mem_cons.mpr ⟨⟨hi,hc⟩,htries⟩, by simp⟩

lemma marked_start : Marked start (start ++ l) tail ↔ l = tail := by
  constructor
  · rintro ⟨tries,htries,hline⟩
    cases tries with
    | nil => simpa using hline
    | cons t tries =>
      obtain ⟨hj,hd⟩ := htries t (List.mem_cons_self ..)
      rw [List.flatMap_cons, List.append_assoc, List.append_assoc, List.append_assoc,
        List.singleton_append] at hline
      exact absurd hline.symm (broken_ne hj hd)
  · rintro rfl
    exact ⟨[], List.forall_mem_nil _, by simp⟩

lemma marked_short (h : line.length < start.length) : ¬Marked start line tail := by
  rintro ⟨tries,-,rfl⟩
  simp at h
  omega

/-- The search with `i` bytes matched ends in front of what follows the start sequence. -/
theorem findStart_iff (hi : i < start.length) :
    findStart start i line = some tail ↔ Marked start (start.take i ++ line) tail := by
  induction line generalizing i with
  | nil => exact iff_of_false (by rintro ⟨⟩) (marked_short (by simpa using hi))
  | cons c line ih =>
    rw [findStart]
    split
    · rename_i hc
      obtain ⟨h,rfl⟩ := List.getElem?_eq_some_iff.mp hc
      have hnext : start.take i ++ start[i]::line = start.take (i+1) ++ line := by
        rw [List.take_succ_eq_append_getElem h, List.append_assoc, List.singleton_append]
      rw [hnext]
      split
      · rename_i hlast
        rw [hlast, List.take_length, marked_start, Option.some.injEq]
      · rename_i hmore
        exact ih (by omega)
    · rename_i hc
      rw [marked_broken hi hc, ih (by omega), List.take_zero, List.nil_append]

end Search

section Loop
variable {stop line : List UInt8} {buflen i n : ℕ} {buf buf' : ℕ → UInt8}

/-- The buffer after `p` has been stored from its start on. -/
def stored (buf : ℕ → UInt8) (p : List UInt8) : ℕ → UInt8 := fun k => p.getD k (buf k)

theorem stored_lt (buf : ℕ → UInt8) (p : List UInt8) {k : ℕ} (h : k < p.length) :
    stored buf p k = p[k] := by
  simp [stored, h]

theorem stored_ge (buf : ℕ → UInt8) (p : List UInt8) {k : ℕ} (h : p.length ≤ k) :
    stored buf p k = buf k := by
  exact List.getD_eq_default _ _ h

theorem stored_concat (buf : ℕ → UInt8) (p : List UInt8) (c : UInt8) :
    Function.update (stored buf p) p.length c = stored buf (p ++ [c]) := by
  funext k
  rw [Function.update_apply]
  split
  · rename_i hk
    subst hk
    rw [stored_lt _ _ (by simp), List.getElem_concat_length rfl]
  · rename_i hk
    rcases Nat.lt_or_gt_of_ne hk with hlt | hgt
    · rw [stored_lt _ _ hlt, stored_lt _ _ (by simp; omega), List.getElem_append_left hlt]
    · rw [stored_ge _ _ hgt.le, stored_ge _ _ (by simp; omega)]

/-- The loop never goes back, and it keeps what it has stored. -/
theorem readUntil_keeps (h : readUntil stop buflen i buf line = some (n, buf')) :
    i ≤ n ∧ ∀ k < i, buf' k = buf k := by
  have hend : ∀ {i : ℕ} {b : ℕ → UInt8}, some (i, Function.update b i 0) = some (n, buf') →
      i ≤ n ∧ ∀ k < i, buf' k = b k := by
    intro i b h
    cases h
    exact ⟨le_rfl, fun k hk => Function.update_of_ne hk.ne _ _⟩
  induction line generalizing i buf with
  | nil =>
    unfold readUntil at h
    split at h
    · cases h
    · exact hend h
  | cons c line ih =>
    unfold readUntil at h
    split at h
    · split at h
      · exact hend h
      · obtain ⟨hle,hkeep⟩ := ih h
        refine ⟨by omega, fun k hk => ?_⟩
        rw [hkeep k (by omega), Function.update_of_ne hk.ne]
    · exact hend h

/-- With the bytes `q` stored, the loop finds its stop behind `p` more of them, and not before. -/
def StopsBehind (stop : List UInt8) (buf : ℕ → UInt8) (q p line : List UInt8) : Prop :=
  ∃ c rest, line = p ++ c::rest ∧ AtStop stop (stored buf (q ++ p)) (q ++ p).length c ∧
    ∀ p' c', p' ++ [c'] <+: p → ¬AtStop stop (stored buf (q ++ p')) (q ++ p').length c'

variable {p q x : List UInt8} {a c : UInt8}

lemma not_stopsBehind_nil : ¬StopsBehind stop buf q p [] := by
  rintro ⟨_,_,h,_⟩
  simp at h

lemma stopsBehind_zero :
    StopsBehind stop buf q [] (c::line) ↔ AtStop stop (stored buf q) q.length c := by
  constructor
  · rintro ⟨_,_,h,hstop,-⟩
    cases h
    simpa using hstop
  · intro hstop
    exact ⟨c, line, rfl, by simpa using hstop, fun p' c' h => by simp at h⟩

lemma stopsBehind_cons : StopsBehind stop buf q (a::p) (c::line) ↔
    c = a ∧ ¬AtStop stop (stored buf q) q.length c ∧ StopsBehind stop buf (q ++ [c]) p line := by
  constructor
  · rintro ⟨d,rest,h,hstop,hno⟩
    obtain ⟨rfl,rfl⟩ := List.cons.inj h
    refine ⟨rfl, by simpa using hno [] c ⟨p,rfl⟩, d, rest, rfl, by simpa using hstop, ?_⟩
    intro p' c' hp
    simpa using hno (c::p') c' (List.cons_prefix_cons.mpr ⟨rfl,hp⟩)
  · rintro ⟨rfl,hgo,d,rest,rfl,hstop,hno⟩
    refine ⟨d, rest, rfl, by simpa using hstop, fun p' c' hp => ?_⟩
    cases p' with
    | nil =>
      obtain ⟨rfl,-⟩ := List.cons_prefix_cons.mp hp
      simpa using hgo
    | cons e p' =>
      obtain ⟨rfl,htail⟩ := List.cons_prefix_cons.mp hp
      simpa using hno p' c' htail

lemma not_extracts_nil (hroom : i < buflen-1) : ¬Extracts (readUntil stop buflen i buf []) x := by
  rw [readUntil, if_pos hroom]
  rintro ⟨_,h,_⟩
  cases h

/-- The loop ends in front of `c`. -/
lemma extracts_stop (hroom : q.length < buflen-1) (hstop : AtStop stop (stored buf q) q.length c) :
    Extracts (readUntil stop buflen q.length (stored buf q) (c::line)) (q ++ p) ↔ p = [] := by
  rw [readUntil, if_pos hroom, if_pos hstop]
  constructor
  · rintro ⟨_,h,_⟩
    have hlen := congrArg Prod.fst (Option.some.inj h)
    simpa using hlen
  · rintro rfl
    rw [List.append_nil]
    refine ⟨_, rfl, fun k hk => ?_⟩
    rw [Function.update_of_ne hk.ne, stored_lt]

/-- The loop stores `c` and goes on. -/
lemma readUntil_go (hroom : q.length < buflen-1)
    (hgo : ¬AtStop stop (stored buf q) q.length c) :
    readUntil stop buflen q.length (stored buf q) (c::line) =
      readUntil stop buflen (q ++ [c]).length (stored buf (q ++ [c])) line := by
  rw [readUntil, if_pos hroom, if_neg hgo, stored_concat, List.length_append,
    List.length_singleton]

/-- What comes out begins with what was stored. -/
lemma prefix_of_extracts
    (h : Extracts (readUntil stop buflen q.length (stored buf q) line) x) : q <+: x := by
  obtain ⟨buf',h,hx⟩ := h
  obtain ⟨hle,hkeep⟩ := readUntil_keeps h
  refine List.prefix_iff_getElem.mpr ⟨hle, fun k hk => ?_⟩
  rw [← hx k (by omega), hkeep k hk, stored_lt]

/-- What the loop has to meet from the bytes `q` on, to return after `p` more. -/
theorem readUntil_iff (stop line q p : List UInt8) (buf : ℕ → UInt8)
    (hlen : (q ++ p).length < buflen-1) :
    Extracts (readUntil stop buflen q.length (stored buf q) line) (q ++ p) ↔
      StopsBehind stop buf q p line := by
  have hroom : q.length < buflen-1 := by
    rw [List.length_append] at hlen
    omega
  induction p generalizing q line with
  | nil =>
    cases line with
    | nil => exact iff_of_false (not_extracts_nil hroom) not_stopsBehind_nil
    | cons c line =>
      rw [stopsBehind_zero]
      by_cases hstop : AtStop stop (stored buf q) q.length c
      · exact iff_of_true ((extracts_stop hroom hstop).mpr rfl) hstop
      · rw [readUntil_go hroom hstop]
        refine iff_of_false (fun h => ?_) hstop
        have hle := (prefix_of_extracts h).length_le
        simp at hle
  | cons a p ih =>
    cases line with
    | nil => exact iff_of_false (not_extracts_nil hroom) not_stopsBehind_nil
    | cons c line =>
      rw [stopsBehind_cons]
      by_cases hstop : AtStop stop (stored buf q) q.length c
      · -- the loop ends here, too early for `p`
        exact iff_of_false (fun h => List.cons_ne_nil a p ((extracts_stop hroom hstop).mp h))
          fun h => h.2.1 hstop
      · rw [readUntil_go hroom hstop, and_iff_right hstop]
        by_cases hc : c = a
        · subst hc
          have hrest := ih line (q ++ [c]) (by simpa using hlen) (by simp at hlen ⊢; omega)
          rw [List.append_assoc, List.singleton_append] at hrest
          exact hrest.trans (and_iff_right rfl).symm
        · refine iff_of_false (fun h => hc ?_) fun h => hc h.1
          have hprefix := (List.prefix_append_right_inj q).mp (prefix_of_extracts h)
          exact (List.cons_prefix_cons.mp hprefix).1

end Loop

def startSeq : List UInt8 := [83,84,65,82,84,58]  -- "START:"

def stopSeq : List UInt8 := [58,69,78,68]  -- ":END"

/-- The loop stops behind `p`: the `:` that it reads follows `:EN`, and a `D` is in the buffer
already. -/
def StaleStop (buf : ℕ → UInt8) (p : List UInt8) : Prop := [58,69,78] <:+ p ∧ buf p.length = 68

instance (buf : ℕ → UInt8) (p : List UInt8) : Decidable (StaleStop buf p) :=
  inferInstanceAs (Decidable (_ ∧ _))

theorem atStop_iff (buf : ℕ → UInt8) (p : List UInt8) (c : UInt8) :
    AtStop stopSeq (stored buf p) p.length c ↔ c = 58 ∧ StaleStop buf p := by
  by_cases h3 : 3 ≤ p.length
  · -- the last three bytes stored, and the stale one
    obtain ⟨q,t,rfl,ht⟩ : ∃ q t, p = q ++ t ∧ t.length = 3 :=
      ⟨_, _, (List.take_append_drop (p.length-3) p).symm, by simp; omega⟩
    obtain ⟨a,b,d,rfl⟩ := List.length_eq_three.mp ht
    have hget : ∀ k (hk : k < 3), stored buf (q ++ [a,b,d]) (q.length+k) = [a,b,d][k] := by
      intro k hk
      rw [stored_lt _ _ (by simp; omega), List.getElem_append_right (by omega)]
      simp
    have hstale : stored buf (q ++ [a,b,d]) (q.length+3) = buf (q ++ [a,b,d]).length := by
      rw [stored_ge _ _ (by simp)]
      simp
    have hpos : (q ++ [a,b,d]).length+1-stopSeq.length = q.length := by
      simp [stopSeq]
    have hsuffix : [58,69,78] <:+ q ++ [a,b,d] ↔ [58,69,78] = [a,b,d] := by
      have hsame : [(58 : UInt8),69,78].length = [a,b,d].length := rfl
      have h : [] ++ [58,69,78] <:+ q ++ [a,b,d] ↔ _ :=
        List.suffix_append_inj_of_length_eq hsame
      simpa using h
    rw [AtStop, hpos, StaleStop, hsuffix, ← hstale]
    constructor
    · rintro ⟨hc,-,hall⟩
      have h0 := hall 0 (by decide)
      have h1 := hall 1 (by decide)
      have h2 := hall 2 (by decide)
      rw [hget _ (by decide)] at h0 h1 h2
      refine ⟨hc, ?_, hall 3 (by decide)⟩
      simpa [stopSeq] using And.intro h0.symm (And.intro h1.symm h2.symm)
    · rintro ⟨hc,habd,hd⟩
      cases habd
      refine ⟨hc, h3, fun k hk => ?_⟩
      by_cases hk3 : k < 3
      · rw [hget k hk3]
        interval_cases k <;> rfl
      · obtain rfl : k = 3 := by
          change k < 4 at hk
          omega
        exact hd
  · refine iff_of_false (fun h => h3 h.2.1) fun h => h3 ?_
    simpa using h.2.1.length_le

/-- Bytes without an `S` do not even begin the start sequence. -/
theorem marked_fresh (pre : List UInt8) (h : (83 : UInt8) ∉ pre) (x : List UInt8) :
    Marked startSeq (pre ++ startSeq ++ x) x := by
  refine ⟨pre.map fun c => (0,c), fun t ht => ?_, ?_⟩
  · obtain ⟨c,hc,rfl⟩ := List.mem_map.mp ht
    exact ⟨Nat.zero_lt_succ 5, fun hs => h (by simpa [startSeq] using Option.some.inj hs ▸ hc)⟩
  · simp [List.flatMap_map]

/-- A payload is extracted from a line exactly if the search for the start ends in front of it and
of a `:`, and the stale byte behind it, and behind no shorter part of it, completes the stop
sequence. -/
theorem swUartGets_iff (line p : List UInt8) (buf : ℕ → UInt8) {buflen : ℕ}
    (hlen : p.length + 4 < buflen) :
    Extracts (swUartGets line startSeq stopSeq buf buflen) p ↔
      (∃ tail, Marked startSeq line tail ∧ p ++ [58] <+: tail) ∧
      StaleStop buf p ∧ ∀ p', p' ++ [58] <+: p → ¬StaleStop buf p' := by
  have hfind : ∀ tail, findStart startSeq 0 line = some tail ↔ Marked startSeq line tail :=
    fun tail => findStart_iff (by decide)
  simp only [← hfind]
  rw [swUartGets]
  cases findStart startSeq 0 line with
  | none => exact iff_of_false (by rintro ⟨_,h,_⟩; cases h) (by rintro ⟨⟨_,h,_⟩,_⟩; cases h)
  | some tail =>
    have hloop := readUntil_iff stopSeq tail [] p buf
      (show ([] ++ p).length < buflen-1 by simp; omega)
    simp only [StopsBehind, List.nil_append, atStop_iff] at hloop
    refine hloop.trans ⟨?_, ?_⟩
    · rintro ⟨c,rest,rfl,⟨rfl,hstop⟩,hno⟩
      exact ⟨⟨_, rfl, rest, by simp⟩, hstop, fun p' h hp => hno p' 58 h ⟨rfl,hp⟩⟩
    · rintro ⟨⟨_,h,rest,htail⟩,hstop,hno⟩
      cases h
      refine ⟨58, rest, ?_, ⟨rfl,hstop⟩, fun p' c h hc => ?_⟩
      · rw [← htail]
        simp
      · obtain ⟨rfl,hp⟩ := hc
        exact hno p' h hp

/-- When nothing before the start sequence looks like the beginning of one. -/
theorem swUartGets_fresh_iff {pre : List UInt8} (p rest : List UInt8) (buf : ℕ → UInt8)
    {buflen : ℕ} (hpre : 83 ∉ pre) (hlen : p.length + 4 < buflen) :
    Extracts (swUartGets (pre ++ startSeq ++ p ++ stopSeq ++ rest) startSeq stopSeq buf buflen) p ↔
      StaleStop buf p ∧ ∀ p', p' ++ [58] <+: p → ¬StaleStop buf p' := by
  have hmarked := marked_fresh pre hpre (p ++ stopSeq ++ rest)
  simp only [← List.append_assoc] at hmarked
  rw [swUartGets_iff _ _ _ hlen]
  refine and_iff_right ⟨_, hmarked, [69,78,68] ++ rest, ?_⟩
  simp [stopSeq]

/-- What it takes to extract the payload between the two markers. -/
theorem swUartGets_extracts_iff (pre p rest : List UInt8) (buf : ℕ → UInt8) (buflen : ℕ)
    (hlen : p.length + 4 < buflen) :
    Extracts (swUartGets (pre ++ startSeq ++ p ++ stopSeq ++ rest) startSeq stopSeq buf buflen) p ↔
      (∃ tail, Marked startSeq (pre ++ startSeq ++ p ++ stopSeq ++ rest) tail ∧
        p ++ [58] <+: tail) ∧
      StaleStop buf p ∧ ∀ p', p' ++ [58] <+: p → ¬StaleStop buf p' :=
  swUartGets_iff _ p buf hlen

theorem swUartGets_extracts_stale :
    Extracts (swUartGets ([] ++ startSeq ++ [58,69,78] ++ stopSeq ++ []) startSeq stopSeq
      (fun _ => 68) 20) [58,69,78] := by
  have hearly : ∀ p', p' ++ [58] <+: [58,69,78] → ¬StaleStop (fun _ => 68) p' := by
    intro p' hprefix hstale
    have hle := hprefix.length_le
    have hge := hstale.1.length_le
    rw [List.length_append] at hle
    exact absurd (hge.trans_lt (Nat.lt_of_succ_le hle)) (by decide)
  exact (swUartGets_extracts_iff [] [58,69,78] [] (fun _ => 68) 20 (by decide)).mpr
    ⟨⟨_, marked_fresh [] (by simp) _, by decide⟩, by decide, hearly⟩

/-- The stop sequence of a one byte payload is stored, and the loop waits for more. -/
theorem stopSeq_missed :
    ¬Extracts (swUartGets ([] ++ startSeq ++ [65] ++ stopSeq ++ []) startSeq stopSeq
      (fun _ => 0) 4095) [65] := by
  rintro ⟨_,h,_⟩
  cases h

/-- The bytes are attempts at the sequence that break off: each one a beginning of it and a byte
that does not continue it. -/
def BrokenOff (start pre : List UInt8) : Prop :=
  ∃ tries : List (ℕ × UInt8), (∀ t ∈ tries, t.1 < start.length ∧ start[t.1]? ≠ some t.2) ∧
    pre = tries.flatMap fun t => start.take t.1 ++ [t.2]

/-- On the line, `pre` stands in front of the first start sequence and `rest` behind it. -/
structure FirstAt (start pre line rest : List UInt8) : Prop where
  split : line = pre ++ start ++ rest
  first : ∀ pre' rest', line = pre' ++ start ++ rest' → pre.length ≤ pre'.length

section First
variable {start pre line rest tail : List UInt8}

lemma marked_iff : Marked start line tail ↔
    ∃ pre, BrokenOff start pre ∧ line = pre ++ start ++ tail := by
  constructor
  · rintro ⟨tries,htries,hline⟩
    exact ⟨_, ⟨tries,htries,rfl⟩, hline⟩
  · rintro ⟨_,⟨tries,htries,rfl⟩,hline⟩
    exact ⟨tries, htries, hline⟩

/-- The search ends behind the first start sequence exactly if the bytes in front of it are
attempts that break off; then no attempt runs into the sequence. -/
theorem findStart_first_iff (hne : start ≠ []) (h : FirstAt start pre line rest) :
    findStart start 0 line = some rest ↔ BrokenOff start pre := by
  have hfind : findStart start 0 line = some rest ↔ Marked start line rest :=
    findStart_iff (List.length_pos_iff.mpr hne)
  rw [hfind, marked_iff]
  constructor
  · rintro ⟨pre',hbroken,hline⟩
    rw [h.split, List.append_assoc, List.append_assoc] at hline
    rwa [List.append_cancel_right hline]
  · exact fun hbroken => ⟨pre, hbroken, h.split⟩

theorem findStart_first_iff_restarted :
    findStart startSeq 0 ([83,65] ++ startSeq ++ [1,2]) = some [1,2] := by
  refine (findStart_first_iff (by decide) ⟨rfl, fun pre' rest' hline => ?_⟩).mpr
    ⟨[(1,65)], by decide, rfl⟩
  rcases pre' with _ | ⟨c,_ | ⟨d,pre'⟩⟩
  · exact absurd hline (by simp [startSeq])
  · exact absurd hline (by simp [startSeq])
  · simp

/-- The `S` of the start sequence is taken for the byte at which an attempt breaks off. -/
theorem doubled_S_missed : FirstAt startSeq [83] ([83] ++ startSeq ++ [1]) [1] ∧
    findStart startSeq 0 ([83] ++ startSeq ++ [1]) ≠ some [1] := by
  refine ⟨⟨rfl, fun pre' rest' hline => ?_⟩, by decide⟩
  cases pre' with
  | nil => exact absurd hline (by simp [startSeq])
  | cons c pre' => simp

end First

end DistributedPis
