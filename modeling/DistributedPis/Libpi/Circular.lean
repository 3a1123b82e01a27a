import DistributedPis.Library.Shared

/-! The lock-free circular queue of `circular.h`: only the producer moves `head`, only the consumer
moves `tail`, and each looks at the other's index while the other may be anywhere in its own code.
`N` is `CQ_N`. -/
namespace DistributedPis
open Library

/-- `cq_t`. -/
structure Cq (α : Type) where
  buf : ℕ → α
  head : ℕ
  tail : ℕ

/-- The elements in the queue, as both indices together show them. No code of the queue looks at
both at once. -/
def Cq.count {α : Type} (N : ℕ) (q : Cq α) : ℕ := (q.head + N - q.tail) % N

/-- `cq_init`; the elements of the cleared buffer are `zero`. -/
def cqInit {α : Type} (zero : α) : Cq α := ⟨fun _ => zero, 0, 0⟩

section Code
variable {α : Type} (N : ℕ)

def cqEmpty : Shared (Cq α) Bool := do
  let head ← Shared.load Cq.head
  let tail ← Shared.load Cq.tail
  pure (head = tail)

def cqFull : Shared (Cq α) Bool := do
  let head ← Shared.load Cq.head
  let tail ← Shared.load Cq.tail
  pure ((head+1) % 2^32 % N = tail)

/-- The indices are subtracted as unsigned words. -/
def cqNelem : Shared (Cq α) ℕ := do
  let head ← Shared.load Cq.head
  let tail ← Shared.load Cq.tail
  pure ((head + 2^32 - tail) % 2^32 % N)

def cqNspace : Shared (Cq α) ℕ := do
  let nelem ← cqNelem N
  pure (N-1 - nelem)

/-- An access outside `c_buf` fails. -/
def loadBuf (i : ℕ) : Shared (Cq α) α := do
  Shared.assert (i < N)
  Shared.load fun q => q.buf i

def storeBuf (i : ℕ) (x : α) : Shared (Cq α) Unit := do
  Shared.assert (i < N)
  Shared.store fun q => {q with buf := Function.update q.buf i x}

def cqPopNonblock : Shared (Cq α) (Option α) := do
  if ← cqEmpty then pure none
  else
    let tail ← Shared.load Cq.tail
    let e ← loadBuf N tail
    Shared.store fun q => {q with tail := (tail+1) % 2^32 % N}
    pure (some e)

/-- The wait for an element fails after `polls` rounds, and at once without interrupts. -/
def cqPop (intEnabled : Bool) : (polls : ℕ) → Shared (Cq α) α
  | 0 => .fail
  | polls+1 => do
    match ← cqPopNonblock N with
    | some e => pure e
    | none => if intEnabled then cqPop intEnabled polls else .fail

def cqPush (x : α) : Shared (Cq α) Bool := do
  if ← cqFull N then pure false
  else
    let head ← Shared.load Cq.head
    let space ← cqNspace N
    Shared.assert (0 < space)
    storeBuf N head x
    Shared.store fun q => {q with head := (head+1) % 2^32 % N}
    pure true

def cqPeek : Shared (Cq α) (Option α) := do
  if ← cqEmpty then pure none
  else
    let tail ← Shared.load Cq.tail
    let e ← loadBuf N tail
    pure (some e)

def cqPopN (intEnabled : Bool) (polls : ℕ) : (n : ℕ) → Shared (Cq α) (List α)
  | 0 => pure []
  | n+1 => do
    let e ← cqPop N intEnabled polls
    let es ← cqPopN intEnabled polls n
    pure (e::es)

def cqPopNNoblk (intEnabled : Bool) (polls n : ℕ) : Shared (Cq α) (Option (List α)) := do
  let nelem ← cqNelem N
  if nelem < n then pure none
  else
    let es ← cqPopN N intEnabled polls n
    pure (some es)

/-- The loop of `cq_push_n`; a refused element is a panic. -/
def pushEach : List α → Shared (Cq α) Unit
  | [] => pure ()
  | x::xs => do
    let ok ← cqPush N x
    Shared.assert (ok = true)
    pushEach xs

def cqPushN (xs : List α) : Shared (Cq α) Bool := do
  Shared.assert (xs ≠ [])
  let space ← cqNspace N
  if space < xs.length then pure false
  else
    pushEach N xs
    pure true

end Code

/-- What was pushed so far, and how much of it was popped. -/
structure History (α : Type) where
  pushed : List α
  popped : ℕ

/-- The elements that are pushed and not popped are in the buffer, between the two indices. -/
structure CqHolds {α : Type} (N : ℕ) (q : Cq α) (g : History α) : Prop where
  head_eq : q.head = g.pushed.length % N
  tail_eq : q.tail = g.popped % N
  popped_le : g.popped ≤ g.pushed.length
  room : g.pushed.length < g.popped + N
  slots : ∀ i x, g.popped ≤ i → g.pushed[i]? = some x → q.buf (i % N) = x

/-- What the consumer may do while the producer is at work. -/
structure ByConsumer {α : Type} (N : ℕ) (t t' : Cq α × History α) : Prop where
  holds : CqHolds N t.1 t.2 → CqHolds N t'.1 t'.2
  pushed_eq : t'.2.pushed = t.2.pushed
  popped_le : t.2.popped ≤ t'.2.popped
  buf_eq : t'.1.buf = t.1.buf

/-- What the producer may do while the consumer is at work. -/
structure ByProducer {α : Type} (N : ℕ) (t t' : Cq α × History α) : Prop where
  holds : CqHolds N t.1 t.2 → CqHolds N t'.1 t'.2
  pushed_extends : t.2.pushed <+: t'.2.pushed
  popped_eq : t'.2.popped = t.2.popped

section Changes
variable {α : Type} {N : ℕ}

theorem byConsumer_rely : Shared.Rely (ByConsumer N : Cq α × History α → _ → Prop) where
  refl _ := ⟨id, rfl, le_rfl, rfl⟩
  trans _ _ _ h h' := ⟨h'.holds ∘ h.holds, h'.pushed_eq.trans h.pushed_eq,
    h.popped_le.trans h'.popped_le, h'.buf_eq.trans h.buf_eq⟩

theorem byProducer_rely : Shared.Rely (ByProducer N : Cq α × History α → _ → Prop) where
  refl _ := ⟨id, List.prefix_rfl, rfl⟩
  trans _ _ _ h h' := ⟨h'.holds ∘ h.holds, h.pushed_extends.trans h'.pushed_extends,
    h'.popped_eq.trans h.popped_eq⟩

end Changes

section Indices
variable {N c l : ℕ}

/-- The indices meet again when there is one slot left. -/
theorem succ_mod_eq_iff (hle : c ≤ l) (hlt : l < c+N) : (l+1) % N = c % N ↔ l+1 = c+N := by
  constructor
  · intro h
    by_contra hne
    have hmod : c + (l+1-c) ≡ c + 0 [MOD N] := by
      have hl : c + (l+1-c) = l+1 := by omega
      rw [hl]
      exact h
    have hzero := (Nat.ModEq.add_left_cancel' c hmod).eq_of_lt_of_lt (by omega) (by omega)
    omega
  · intro h
    rw [h, Nat.add_mod_right]

/-- The difference of the indices, also when `head` has gone around and `tail` has not. -/
theorem distance_eq {M : ℕ} (hN : N ∣ M) (hM : 0 < M) (hle : c ≤ l) (hlt : l < c+N) :
    (l % N + M - c % N) % N = l - c := by
  have hpos : 0 < N := by omega
  have hc : c % N < N := Nat.mod_lt _ hpos
  have hbound : N ≤ M := Nat.le_of_dvd hM hN
  have hmod : l % N + M - c % N ≡ l - c [MOD N] := by
    apply Nat.ModEq.add_right_cancel (Nat.mod_modEq c N)
    calc l % N + M - c % N + c % N = l % N + M := by omega
      _ ≡ l + 0 [MOD N] :=
        (Nat.mod_modEq l N).add ((Nat.modEq_zero_iff_dvd).mpr hN)
      _ = l - c + c := by omega
  rw [hmod, Nat.mod_eq_of_lt (by omega)]

theorem nelem_eq (hN : N ∣ 2^32) (hle : c ≤ l) (hlt : l < c+N) :
    (l % N + 2^32 - c % N) % 2^32 % N = l - c := by
  rw [Nat.mod_mod_of_dvd _ hN]
  exact distance_eq hN (by decide) hle hlt

theorem next_eq (hN : N ∣ 2^32) (i : ℕ) : (i % N + 1) % 2^32 % N = (i+1) % N := by
  rw [Nat.mod_mod_of_dvd _ hN, Nat.mod_add_mod]

end Indices

namespace CqHolds
variable {α : Type} {N : ℕ} {q : Cq α} {g : History α} {x : α}

theorem count_eq (h : CqHolds N q g) : q.count N = g.pushed.length - g.popped := by
  have hroom := h.room
  have hle := h.popped_le
  rw [Cq.count, h.head_eq, h.tail_eq]
  exact distance_eq dvd_rfl (by omega) hle hroom

/-- The slot behind the last element is free. -/
theorem write (h : CqHolds N q g) (x : α) :
    CqHolds N {q with buf := Function.update q.buf (g.pushed.length % N) x} g := by
  refine ⟨h.head_eq, h.tail_eq, h.popped_le, h.room, fun i y hi hy => ?_⟩
  have hlen : i < g.pushed.length := (List.getElem?_eq_some_iff.mp hy).1
  have hne : i % N ≠ g.pushed.length % N := by
    intro heq
    have hroom := h.room
    have hmod : i + 0 ≡ i + (g.pushed.length-i) [MOD N] := by
      rw [Nat.add_zero, Nat.add_sub_cancel' hlen.le]
      exact heq
    have hzero := (Nat.ModEq.add_left_cancel' i hmod).eq_of_lt_of_lt (by omega) (by omega)
    omega
  exact (Function.update_of_ne hne _ _).trans (h.slots i y hi hy)

theorem publish (h : CqHolds N q g) (hroom : g.pushed.length + 1 < g.popped + N)
    (hx : q.buf (g.pushed.length % N) = x) :
    CqHolds N {q with head := (g.pushed.length+1) % N} ⟨g.pushed ++ [x], g.popped⟩ := by
  refine ⟨by simp, h.tail_eq, ?_, by simpa using hroom, fun i y hi hy => ?_⟩
  · have hle := h.popped_le
    simp only [List.length_append, List.length_singleton]
    omega
  · rcases Nat.lt_trichotomy i g.pushed.length with hlt | rfl | hgt
    · rw [List.getElem?_append_left hlt] at hy
      exact h.slots i y hi hy
    · simp only [List.getElem?_concat_length, Option.some.injEq] at hy
      exact hy ▸ hx
    · have hlen := (List.getElem?_eq_some_iff.mp hy).1
      simp only [List.length_append, List.length_singleton] at hlen
      omega

theorem advance (h : CqHolds N q g) (hlt : g.popped < g.pushed.length) :
    CqHolds N {q with tail := (g.popped+1) % N} ⟨g.pushed, g.popped+1⟩ := by
  have hroom := h.room
  exact ⟨h.head_eq, rfl, hlt, by simp only; omega, fun i y hi hy =>
    h.slots i y (Nat.le_of_succ_le hi) hy⟩

end CqHolds

section Access
variable {α β : Type} {N i : ℕ} {R G : Cq α × History α → Cq α × History α → Prop}
  {Q : β → Cq α × History α → Prop} {t : Cq α × History α}

theorem loadBuf_bind (hi : i < N) (hG : ∀ t, G t t) {k : α → Shared (Cq α) β}
    (h : ∀ t', R t t' → (k (t'.1.buf i)).Safe R G Q t') : (loadBuf N i >>= k).Safe R G Q t := by
  rw [loadBuf, Shared.assert, if_pos hi]
  exact Shared.Safe.load_bind hG h

theorem storeBuf_bind (hi : i < N) {x : α} {k : Unit → Shared (Cq α) β}
    (h : ∀ t', R t t' → ∃ g, G t' ({t'.1 with buf := Function.update t'.1.buf i x}, g) ∧
      (k ()).Safe R G Q ({t'.1 with buf := Function.update t'.1.buf i x}, g)) :
    (storeBuf N i x >>= k).Safe R G Q t := by
  rw [storeBuf, Shared.assert, if_pos hi]
  exact Shared.Safe.store_bind h

end Access

section Producer
variable {α : Type} {N : ℕ} {t : Cq α × History α}

/-- The producer sees a full queue only if it is full. -/
theorem cqFull_safe (hN : N ∣ 2^32) (h : CqHolds N t.1 t.2) :
    (cqFull N).Safe (ByConsumer N) (ByProducer N) (fun full u => CqHolds N u.1 u.2 ∧
      u.2.pushed = t.2.pushed ∧ t.2.popped ≤ u.2.popped ∧
      (full = true → t.2.popped + N ≤ t.2.pushed.length + 1) ∧
      (full = false → t.2.pushed.length + 1 < u.2.popped + N)) t := by
  apply Shared.Safe.load_bind byProducer_rely.refl
  intro t₁ h₁
  apply Shared.Safe.load_bind byProducer_rely.refl
  intro t₂ h₂ u hu
  have hheld₁ := h₁.holds h
  have hheld₂ := h₂.holds hheld₁
  have hpushed := h₂.pushed_eq.trans h₁.pushed_eq
  have hle := hpushed ▸ hheld₂.popped_le
  have hroom := hpushed ▸ hheld₂.room
  have hpopped₁ := h₁.popped_le
  have hpopped₂ := h₂.popped_le
  have hpopped := hu.popped_le
  refine ⟨hu.holds hheld₂, hu.pushed_eq.trans hpushed, by omega, fun hf => ?_, fun hf => ?_⟩
  all_goals
    rw [hheld₁.head_eq, hheld₂.tail_eq, h₁.pushed_eq, next_eq hN] at hf
  · have hfull := (succ_mod_eq_iff hle hroom).mp (of_decide_eq_true hf)
    omega
  · have hfull := mt (succ_mod_eq_iff hle hroom).mpr (of_decide_eq_false hf)
    omega

/-- Each side sees at most as much space as there is, and the producer at least what it had. -/
theorem cqNspace_safe (hN : N ∣ 2^32) (h : CqHolds N t.1 t.2) :
    (cqNspace N).Safe (ByConsumer N) (ByProducer N) (fun space u => CqHolds N u.1 u.2 ∧
      u.2.pushed = t.2.pushed ∧ t.2.popped ≤ u.2.popped ∧
      t.2.popped + N ≤ t.2.pushed.length + 1 + space ∧
      t.2.pushed.length + 1 + space ≤ u.2.popped + N) t := by
  apply Shared.Safe.load_bind byProducer_rely.refl
  intro t₁ h₁
  apply Shared.Safe.load_bind byProducer_rely.refl
  intro t₂ h₂ u hu
  have hheld₁ := h₁.holds h
  have hheld₂ := h₂.holds hheld₁
  have hpushed := h₂.pushed_eq.trans h₁.pushed_eq
  have hle := hpushed ▸ hheld₂.popped_le
  have hroom := hpushed ▸ hheld₂.room
  have hpopped₁ := h₁.popped_le
  have hpopped₂ := h₂.popped_le
  have hpopped := hu.popped_le
  have hnelem := nelem_eq hN hle hroom
  rw [hheld₁.head_eq, hheld₂.tail_eq, h₁.pushed_eq, hnelem]
  exact ⟨hu.holds hheld₂, hu.pushed_eq.trans hpushed, by omega, by omega, by omega⟩

theorem cqPush_safe (hN : N ∣ 2^32) (h : CqHolds N t.1 t.2) (x : α) :
    (cqPush N x).Safe (ByConsumer N) (ByProducer N) (fun ok u => CqHolds N u.1 u.2 ∧
      u.2.pushed = (if ok then t.2.pushed ++ [x] else t.2.pushed) ∧
      t.2.popped ≤ u.2.popped ∧ (ok = false → t.2.popped + N ≤ t.2.pushed.length + 1)) t := by
  apply (cqFull_safe hN h).seq byConsumer_rely
  rintro full t₁ ⟨h₁,hpushed₁,hpopped₁,hfull,hroom₁⟩
  cases full with
  | true =>
    exact fun u hu => ⟨hu.holds h₁, hu.pushed_eq.trans hpushed₁, hpopped₁.trans hu.popped_le,
      fun _ => hfull rfl⟩
  | false =>
    apply Shared.Safe.load_bind byProducer_rely.refl
    intro t₂ ht₂
    have h₂ := ht₂.holds h₁
    have hpushed₂ := ht₂.pushed_eq.trans hpushed₁
    have hroom₂ : t.2.pushed.length + 1 < t₂.2.popped + N :=
      (hroom₁ rfl).trans_le (Nat.add_le_add_right ht₂.popped_le N)
    apply (cqNspace_safe hN h₂).seq byConsumer_rely
    rintro space t₃ ⟨h₃,hpushed₃,hpopped₃,hspace,hroom₃⟩
    rw [hpushed₂] at hpushed₃ hspace hroom₃
    apply Shared.Safe.assert_bind (by omega)
    rw [h₂.head_eq, hpushed₂]
    have hN0 : 0 < N := Nat.pos_of_dvd_of_pos hN (by decide)
    apply storeBuf_bind (Nat.mod_lt _ hN0)
    intro t₄ ht₄
    have h₄ := ht₄.holds h₃
    have hpushed₄ := ht₄.pushed_eq.trans hpushed₃
    have hwrite := h₄.write x
    rw [hpushed₄] at hwrite
    refine ⟨t₄.2, ⟨fun _ => hwrite, List.prefix_rfl, rfl⟩, ?_⟩
    -- the element is written and can be published
    intro t₅ ht₅
    have h₅ := ht₅.holds hwrite
    have hpushed₅ : t₅.2.pushed = t.2.pushed := ht₅.pushed_eq.trans hpushed₄
    have hpopped₅ := ht₄.popped_le.trans ht₅.popped_le
    have hslot : t₅.1.buf (t₅.2.pushed.length % N) = x := by
      rw [ht₅.buf_eq, hpushed₅]
      exact Function.update_self ..
    have hpublish := h₅.publish (by rw [hpushed₅]; omega) hslot
    rw [next_eq hN]
    rw [hpushed₅] at hpublish
    refine ⟨⟨t.2.pushed ++ [x], t₅.2.popped⟩, ⟨fun _ => hpublish, ?_, rfl⟩, ?_⟩
    · rw [hpushed₅]
      exact List.prefix_append ..
    · refine fun u hu => ⟨hu.holds hpublish, hu.pushed_eq, ?_, nofun⟩
      have hpopped := hu.popped_le
      have hpopped₂ := ht₂.popped_le
      simp only at hpopped
      omega

theorem pushEach_safe (hN : N ∣ 2^32) (h : CqHolds N t.1 t.2) (xs : List α)
    (hroom : t.2.pushed.length + 1 + xs.length ≤ t.2.popped + N) :
    (pushEach N xs).Safe (ByConsumer N) (ByProducer N) (fun _ u => CqHolds N u.1 u.2 ∧
      u.2.pushed = t.2.pushed ++ xs) t := by
  induction xs generalizing t with
  | nil => exact fun u hu => ⟨hu.holds h, by rw [hu.pushed_eq, List.append_nil]⟩
  | cons x xs ih =>
    rw [List.length_cons] at hroom
    apply (cqPush_safe hN h x).seq byConsumer_rely
    rintro ok t₁ ⟨h₁,hpushed₁,hpopped₁,hok⟩
    cases ok with
    | false =>
      have hfull := hok rfl
      omega
    | true =>
      rw [if_pos rfl] at hpushed₁
      apply Shared.Safe.assert_bind rfl
      have hroom₁ : t₁.2.pushed.length + 1 + xs.length ≤ t₁.2.popped + N := by
        rw [hpushed₁, List.length_append, List.length_singleton]
        omega
      refine (ih h₁ hroom₁).mono fun _ u hu => ⟨hu.1, ?_⟩
      rw [hu.2, hpushed₁, List.append_assoc, List.singleton_append]

theorem cqPushN_safe (hN : N ∣ 2^32) (h : CqHolds N t.1 t.2) {xs : List α} (hxs : xs ≠ []) :
    (cqPushN N xs).Safe (ByConsumer N) (ByProducer N) (fun ok u => CqHolds N u.1 u.2 ∧
      u.2.pushed = (if ok then t.2.pushed ++ xs else t.2.pushed) ∧
      (ok = false → t.2.popped + N ≤ t.2.pushed.length + xs.length)) t := by
  apply Shared.Safe.assert_bind hxs
  apply (cqNspace_safe hN h).seq byConsumer_rely
  rintro space t₁ ⟨h₁,hpushed₁,hpopped₁,hspace,hroom₁⟩
  split
  · exact fun u hu => ⟨hu.holds h₁, hu.pushed_eq.trans hpushed₁, fun _ => by omega⟩
  · apply (pushEach_safe hN h₁ xs (by rw [hpushed₁]; omega)).seq byConsumer_rely
    rintro - t₂ ⟨h₂,hpushed₂⟩
    refine fun u hu => ⟨hu.holds h₂, ?_, nofun⟩
    rw [hu.pushed_eq, hpushed₂, hpushed₁]
    rfl

end Producer

/-- What lies in the first list lies in the same place of the second one. -/
theorem slice_extends {α : Type} {l l' : List α} (h : l <+: l') {i n : ℕ}
    (hle : i+n ≤ l.length) : (l'.drop i).take n = (l.drop i).take n := by
  obtain ⟨r,rfl⟩ := h
  rw [List.drop_append_of_le_length (by omega), List.take_append_of_le_length]
  rw [List.length_drop]
  omega

section Consumer
variable {α : Type} {N : ℕ} {t : Cq α × History α}

theorem cqEmpty_safe (h : CqHolds N t.1 t.2) :
    cqEmpty.Safe (ByProducer N) (ByConsumer N) (fun empty u => CqHolds N u.1 u.2 ∧
      t.2.pushed <+: u.2.pushed ∧ u.2.popped = t.2.popped ∧
      (empty = true → t.2.popped = t.2.pushed.length) ∧
      (empty = false → u.2.popped < u.2.pushed.length)) t := by
  apply Shared.Safe.load_bind byConsumer_rely.refl
  intro t₁ h₁
  apply Shared.Safe.load_bind byConsumer_rely.refl
  intro t₂ h₂ u hu
  have hheld₁ := h₁.holds h
  have hheld₂ := h₂.holds hheld₁
  have hpopped := h₂.popped_eq.trans h₁.popped_eq
  have hle := h₁.pushed_extends.length_le
  have hle₂ := (h₂.pushed_extends.trans hu.pushed_extends).length_le
  have hpopped₁ := hheld₁.popped_le
  have hroom₁ := hheld₁.room
  have hstart := h.popped_le
  rw [h₁.popped_eq] at hpopped₁ hroom₁
  refine ⟨hu.holds hheld₂, h₁.pushed_extends.trans (h₂.pushed_extends.trans hu.pushed_extends),
    hu.popped_eq.trans hpopped, fun he => ?_, fun he => ?_⟩
  all_goals rw [hheld₁.head_eq, hheld₂.tail_eq, hpopped] at he
  · have heq := of_decide_eq_true he
    by_contra hne
    have hmod : t.2.popped + (t₁.2.pushed.length - t.2.popped) ≡ t.2.popped + 0 [MOD N] := by
      rw [Nat.add_sub_cancel' hpopped₁, Nat.add_zero]
      exact heq
    have hzero := (Nat.ModEq.add_left_cancel' _ hmod).eq_of_lt_of_lt (by omega) (by omega)
    omega
  · have hne := of_decide_eq_false he
    rw [hu.popped_eq, hpopped]
    refine lt_of_le_of_ne (hpopped₁.trans hle₂) fun heq => hne ?_
    have hlen : t₁.2.pushed.length = t.2.popped := by omega
    rw [hlen]

theorem cqNelem_safe (hN : N ∣ 2^32) (h : CqHolds N t.1 t.2) :
    (cqNelem N).Safe (ByProducer N) (ByConsumer N) (fun nelem u => CqHolds N u.1 u.2 ∧
      t.2.pushed <+: u.2.pushed ∧ u.2.popped = t.2.popped ∧
      t.2.popped + nelem ≤ u.2.pushed.length ∧ t.2.pushed.length ≤ t.2.popped + nelem) t := by
  apply Shared.Safe.load_bind byConsumer_rely.refl
  intro t₁ h₁
  apply Shared.Safe.load_bind byConsumer_rely.refl
  intro t₂ h₂ u hu
  have hheld₁ := h₁.holds h
  have hheld₂ := h₂.holds hheld₁
  have hpopped := h₂.popped_eq.trans h₁.popped_eq
  have hle := h₁.pushed_extends.length_le
  have hle₂ := (h₂.pushed_extends.trans hu.pushed_extends).length_le
  have hpopped₁ := hheld₁.popped_le
  have hroom₁ := hheld₁.room
  rw [h₁.popped_eq] at hpopped₁ hroom₁
  rw [hheld₁.head_eq, hheld₂.tail_eq, hpopped, nelem_eq hN hpopped₁ hroom₁]
  exact ⟨hu.holds hheld₂, h₁.pushed_extends.trans (h₂.pushed_extends.trans hu.pushed_extends),
    hu.popped_eq.trans hpopped, by omega, by omega⟩

/-- The oldest element is in the buffer for as long as the consumer leaves it there. -/
theorem oldest_eq (h : CqHolds N t.1 t.2) (hlt : t.2.popped < t.2.pushed.length)
    {t' : Cq α × History α} (ht : ByProducer N t t') :
    ((t'.2.pushed.drop t.2.popped).take 1) = [t'.1.buf (t.2.popped % N)] := by
  have hget : t.2.pushed[t.2.popped]? = some t.2.pushed[t.2.popped] :=
    List.getElem?_eq_getElem hlt
  obtain ⟨r,hr⟩ := ht.pushed_extends
  have hget' : t'.2.pushed[t.2.popped]? = some t.2.pushed[t.2.popped] := by
    rw [← hr, List.getElem?_append_left hlt, hget]
  have hbuf := (ht.holds h).slots _ _ ht.popped_eq.le hget'
  rw [slice_extends ht.pushed_extends (show t.2.popped + 1 ≤ t.2.pushed.length from hlt), hbuf,
    List.drop_eq_getElem_cons hlt]
  rfl

theorem cqPopNonblock_safe (hN : N ∣ 2^32) (h : CqHolds N t.1 t.2) :
    (cqPopNonblock N).Safe (ByProducer N) (ByConsumer N) (fun r u => CqHolds N u.1 u.2 ∧
      t.2.pushed <+: u.2.pushed ∧ u.2.popped = t.2.popped + r.toList.length ∧
      u.2.popped ≤ u.2.pushed.length ∧
      (u.2.pushed.drop t.2.popped).take r.toList.length = r.toList ∧
      (r = none → t.2.popped = t.2.pushed.length)) t := by
  apply (cqEmpty_safe h).seq byProducer_rely
  rintro empty t₁ ⟨h₁,hpre₁,hpopped₁,hempty,hlt₁⟩
  cases empty with
  | true =>
    refine fun u hu => ⟨hu.holds h₁, hpre₁.trans hu.pushed_extends, hu.popped_eq.trans hpopped₁,
      ?_, rfl, fun _ => hempty rfl⟩
    exact (hu.holds h₁).popped_le
  | false =>
    have hN0 : 0 < N := Nat.pos_of_dvd_of_pos hN (by decide)
    apply Shared.Safe.load_bind byConsumer_rely.refl
    intro t₂ h₂
    have hheld₂ := h₂.holds h₁
    rw [hheld₂.tail_eq]
    apply loadBuf_bind (Nat.mod_lt _ hN0) byConsumer_rely.refl
    intro t₃ h₃
    have hlt₂ : t₂.2.popped < t₂.2.pushed.length := by
      rw [h₂.popped_eq]
      exact (hlt₁ rfl).trans_le h₂.pushed_extends.length_le
    have hold := oldest_eq hheld₂ hlt₂ h₃
    intro t₄ h₄
    have h₃₄ := byProducer_rely.trans _ _ _ h₃ h₄
    have hheld₄ := h₃₄.holds hheld₂
    have hlt₄ : t₄.2.popped < t₄.2.pushed.length := by
      rw [h₃₄.popped_eq]
      exact hlt₂.trans_le h₃₄.pushed_extends.length_le
    have hadvance := hheld₄.advance hlt₄
    have hpopped₄ : t₄.2.popped = t.2.popped :=
      h₃₄.popped_eq.trans (h₂.popped_eq.trans hpopped₁)
    have hpre₄ := hpre₁.trans (h₂.pushed_extends.trans h₃₄.pushed_extends)
    have hpopped₂ : t₂.2.popped = t.2.popped := h₂.popped_eq.trans hpopped₁
    rw [next_eq hN, ← h₃₄.popped_eq]
    refine ⟨⟨t₄.2.pushed, t₄.2.popped+1⟩, ⟨fun _ => hadvance, rfl, Nat.le_succ _, rfl⟩, ?_⟩
    intro u hu
    refine ⟨hu.holds hadvance, hpre₄.trans hu.pushed_extends, ?_, (hu.holds hadvance).popped_le,
      ?_, nofun⟩
    · rw [hu.popped_eq, ← hpopped₄]
      rfl
    · have hpre : t₃.2.pushed <+: u.2.pushed := h₄.pushed_extends.trans hu.pushed_extends
      have hlen : t.2.popped + 1 ≤ t₃.2.pushed.length := by
        have hle := h₃.pushed_extends.length_le
        omega
      rw [h₃₄.popped_eq]
      rw [hpopped₂] at hold ⊢
      exact (slice_extends hpre hlen).trans hold

/-- With an element in the queue the wait ends in the first round. -/
theorem cqPop_safe (hN : N ∣ 2^32) (h : CqHolds N t.1 t.2) (hlt : t.2.popped < t.2.pushed.length)
    (intEnabled : Bool) (polls : ℕ) :
    (cqPop N intEnabled (polls+1)).Safe (ByProducer N) (ByConsumer N) (fun e u =>
      CqHolds N u.1 u.2 ∧ t.2.pushed <+: u.2.pushed ∧ u.2.popped = t.2.popped + 1 ∧
      (u.2.pushed.drop t.2.popped).take 1 = [e]) t := by
  apply (cqPopNonblock_safe hN h).seq byProducer_rely
  rintro r t₁ ⟨h₁,hpre₁,hpopped₁,hle₁,hslice₁,hnone⟩
  cases r with
  | none => exact absurd (hnone rfl) (Nat.ne_of_lt hlt)
  | some e =>
    refine fun u hu => ⟨hu.holds h₁, hpre₁.trans hu.pushed_extends, hu.popped_eq.trans hpopped₁, ?_⟩
    refine (slice_extends hu.pushed_extends ?_).trans hslice₁
    exact hpopped₁ ▸ hle₁

theorem cqPopN_safe (hN : N ∣ 2^32) (h : CqHolds N t.1 t.2) (intEnabled : Bool) (polls : ℕ) {n : ℕ}
    (hle : t.2.popped + n ≤ t.2.pushed.length) :
    (cqPopN N intEnabled (polls+1) n).Safe (ByProducer N) (ByConsumer N) (fun es u =>
      CqHolds N u.1 u.2 ∧ t.2.pushed <+: u.2.pushed ∧ u.2.popped = t.2.popped + n ∧
      (u.2.pushed.drop t.2.popped).take n = es) t := by
  induction n generalizing t with
  | zero => exact fun u hu => ⟨hu.holds h, hu.pushed_extends, hu.popped_eq, rfl⟩
  | succ n ih =>
    apply (cqPop_safe hN h (by omega) intEnabled polls).seq byProducer_rely
    rintro e t₁ ⟨h₁,hpre₁,hpopped₁,hslice₁⟩
    have hle₁ : t₁.2.popped + n ≤ t₁.2.pushed.length := by
      have hlen := hpre₁.length_le
      omega
    apply (ih h₁ hle₁).seq byProducer_rely
    rintro es t₂ ⟨h₂,hpre₂,hpopped₂,hslice₂⟩ u hu
    have hpre := hpre₂.trans hu.pushed_extends
    refine ⟨hu.holds h₂, hpre₁.trans hpre, ?_, ?_⟩
    · rw [hu.popped_eq, hpopped₂, hpopped₁]
      omega
    · have hhead := (slice_extends hpre (show t.2.popped + 1 ≤ t₁.2.pushed.length by
        omega)).trans hslice₁
      have htail := (slice_extends hu.pushed_extends (show t₁.2.popped + n ≤ t₂.2.pushed.length by
        have hlen := hpre₂.length_le
        omega)).trans hslice₂
      rw [Nat.add_comm n 1, List.take_add, hhead, List.drop_drop, ← hpopped₁, htail]
      rfl

theorem cqPopNNoblk_safe (hN : N ∣ 2^32) (h : CqHolds N t.1 t.2) (intEnabled : Bool) (polls n : ℕ) :
    (cqPopNNoblk N intEnabled (polls+1) n).Safe (ByProducer N) (ByConsumer N) (fun r u =>
      CqHolds N u.1 u.2 ∧ t.2.pushed <+: u.2.pushed ∧
      u.2.popped = t.2.popped + (r.map fun _ => n).getD 0 ∧
      (r = none → t.2.pushed.length < t.2.popped + n) ∧
      ∀ es, r = some es → (u.2.pushed.drop t.2.popped).take n = es) t := by
  apply (cqNelem_safe hN h).seq byProducer_rely
  rintro nelem t₁ ⟨h₁,hpre₁,hpopped₁,hle₁,hmin⟩
  split
  · exact fun u hu => ⟨hu.holds h₁, hpre₁.trans hu.pushed_extends, hu.popped_eq.trans hpopped₁,
      fun _ => by omega, nofun⟩
  · apply (cqPopN_safe hN h₁ intEnabled polls (n := n) (by omega)).seq byProducer_rely
    rintro es t₂ ⟨h₂,hpre₂,hpopped₂,hslice₂⟩ u hu
    refine ⟨hu.holds h₂, hpre₁.trans (hpre₂.trans hu.pushed_extends), ?_, nofun, ?_⟩
    · rw [hu.popped_eq, hpopped₂, hpopped₁]
      rfl
    · rintro _ ⟨⟩
      rw [hpopped₁] at hslice₂
      refine (slice_extends hu.pushed_extends ?_).trans hslice₂
      have hlen := hpre₂.length_le
      omega

theorem cqPeek_safe (hN : N ∣ 2^32) (h : CqHolds N t.1 t.2) :
    (cqPeek N).Safe (ByProducer N) (ByConsumer N) (fun r u => CqHolds N u.1 u.2 ∧
      t.2.pushed <+: u.2.pushed ∧ u.2.popped = t.2.popped ∧
      (r = none → t.2.popped = t.2.pushed.length) ∧
      ∀ e, r = some e → (u.2.pushed.drop t.2.popped).take 1 = [e]) t := by
  apply (cqEmpty_safe h).seq byProducer_rely
  rintro empty t₁ ⟨h₁,hpre₁,hpopped₁,hempty,hlt₁⟩
  cases empty with
  | true =>
    exact fun u hu => ⟨hu.holds h₁, hpre₁.trans hu.pushed_extends, hu.popped_eq.trans hpopped₁,
      fun _ => hempty rfl, nofun⟩
  | false =>
    have hN0 : 0 < N := Nat.pos_of_dvd_of_pos hN (by decide)
    apply Shared.Safe.load_bind byConsumer_rely.refl
    intro t₂ h₂
    have hheld₂ := h₂.holds h₁
    have hlt₂ : t₂.2.popped < t₂.2.pushed.length := by
      rw [h₂.popped_eq]
      exact (hlt₁ rfl).trans_le h₂.pushed_extends.length_le
    rw [hheld₂.tail_eq]
    apply loadBuf_bind (Nat.mod_lt _ hN0) byConsumer_rely.refl
    intro t₃ h₃ u hu
    have hold := oldest_eq hheld₂ hlt₂ h₃
    have hpopped₂ : t₂.2.popped = t.2.popped := h₂.popped_eq.trans hpopped₁
    have hpopped₃ := h₃.popped_eq.trans hpopped₂
    refine ⟨hu.holds (h₃.holds hheld₂), ?_, hu.popped_eq.trans hpopped₃, nofun, ?_⟩
    · exact hpre₁.trans (h₂.pushed_extends.trans (h₃.pushed_extends.trans hu.pushed_extends))
    · rintro _ ⟨⟩
      rw [hpopped₂] at hold ⊢
      refine (slice_extends hu.pushed_extends ?_).trans hold
      have hlen := h₃.pushed_extends.length_le
      omega

end Consumer

/-- A call of the producer. -/
inductive ProducerCall (α : Type)
  | push (x : α)
  | pushN (xs : List α)

def ProducerCall.elems {α : Type} : ProducerCall α → List α
  | push x => [x]
  | pushN xs => xs

/-- A call of the consumer that does not wait. -/
inductive ConsumerCall
  | popNonblock
  | popNNoblk (n : ℕ)
  | peek

namespace ConsumerCall

/-- How many elements an answer has. -/
def gets : ConsumerCall → ℕ
  | popNonblock => 1
  | popNNoblk n => n
  | peek => 1

/-- How many of them leave the queue. -/
def removes : ConsumerCall → ℕ
  | peek => 0
  | call => call.gets

end ConsumerCall

section Sessions
variable {α : Type} (N : ℕ)

def producerCall : ProducerCall α → Shared (Cq α) Bool
  | .push x => cqPush N x
  | .pushN xs => cqPushN N xs

def consumerCall (intEnabled : Bool) (polls : ℕ) :
    ConsumerCall → Shared (Cq α) (Option (List α))
  | .popNonblock => do
    let r ← cqPopNonblock N
    pure (r.map fun e => [e])
  | .popNNoblk n => cqPopNNoblk N intEnabled polls n
  | .peek => do
    let r ← cqPeek N
    pure (r.map fun e => [e])

/-- One call after the other. With each answer comes the number of elements that were in the queue
when its call began. -/
def calls {β δ : Type} (call : β → Shared (Cq α) δ) : List β → Shared (Cq α) (List (ℕ × δ))
  | [] => pure []
  | c::cs => do
    let count ← Shared.load (Cq.count N)
    let a ← call c
    let as ← calls call cs
    pure ((count,a)::as)

/-- The answers of the producer: `log'` is what they leave in all, and a call is refused only if
the queue had no room for its elements when it began. -/
inductive Produced : List α → List (ProducerCall α) → List (ℕ × Bool) → List α → Prop
  | nil (log) : Produced log [] [] log
  | pushed {log log' c cs k as} (h : Produced (log ++ c.elems) cs as log') :
    Produced log (c::cs) ((k,true)::as) log'
  | refused {log log' c cs k as} (hfull : N ≤ k + c.elems.length)
    (h : Produced log cs as log') : Produced log (c::cs) ((k,false)::as) log'

/-- The answers of the consumer are the next elements of the log, from `c` up to `d`; a call gets
none only if fewer than it asks for were in the queue when it began. -/
inductive Consumed (log : List α) :
    ℕ → List ConsumerCall → List (ℕ × Option (List α)) → ℕ → Prop
  | nil (c) : Consumed log c [] [] c
  | none {c d call cs k as} (hfew : k < call.gets) (h : Consumed log c cs as d) :
    Consumed log c (call::cs) ((k,none)::as) d
  | some {c d call cs k as} (hle : c + call.gets ≤ log.length)
    (h : Consumed log (c + call.removes) cs as d) :
    Consumed log c (call::cs) ((k,some ((log.drop c).take call.gets))::as) d

end Sessions

section Run
variable {α : Type} {N : ℕ} {t : Cq α × History α}

theorem Consumed.mono {log log' : List α} (hpre : log <+: log') {c d : ℕ}
    {cs : List ConsumerCall} {as : List (ℕ × Option (List α))} (h : Consumed log c cs as d) :
    Consumed log' c cs as d := by
  induction h with
  | nil c => exact .nil c
  | none hfew _ ih => exact .none hfew ih
  | some hle _ ih =>
    rw [← slice_extends hpre hle]
    exact .some (hle.trans hpre.length_le) ih

theorem producerCall_safe (hN : N ∣ 2^32) (h : CqHolds N t.1 t.2) {c : ProducerCall α}
    (hc : c.elems ≠ []) :
    (producerCall N c).Safe (ByConsumer N) (ByProducer N) (fun ok u => CqHolds N u.1 u.2 ∧
      u.2.pushed = (if ok then t.2.pushed ++ c.elems else t.2.pushed) ∧
      (ok = false → t.2.popped + N ≤ t.2.pushed.length + c.elems.length)) t := by
  cases c with
  | push x => exact (cqPush_safe hN h x).mono fun _ _ hu => ⟨hu.1, hu.2.1, hu.2.2.2⟩
  | pushN xs => exact cqPushN_safe hN h hc

theorem producer_safe (hN : N ∣ 2^32) (h : CqHolds N t.1 t.2) (cs : List (ProducerCall α))
    (hcs : ∀ c ∈ cs, c.elems ≠ []) :
    (calls N (producerCall N) cs).Safe (ByConsumer N) (ByProducer N) (fun as u =>
      CqHolds N u.1 u.2 ∧ Produced N t.2.pushed cs as u.2.pushed) t := by
  induction cs generalizing t with
  | nil => exact fun u hu => ⟨hu.holds h, hu.pushed_eq ▸ .nil _⟩
  | cons c cs ih =>
    apply Shared.Safe.load_bind byProducer_rely.refl
    intro t₀ ht₀
    have h₀ := ht₀.holds h
    have hcount := h₀.count_eq
    apply (producerCall_safe hN h₀ (hcs c (List.mem_cons_self ..))).seq byConsumer_rely
    rintro ok t₁ ⟨h₁,hpushed₁,hfull⟩
    apply (ih h₁ fun c' hc' => hcs c' (List.mem_cons_of_mem _ hc')).seq byConsumer_rely
    rintro as t₂ ⟨h₂,hrest⟩ u hu
    refine ⟨hu.holds h₂, ?_⟩
    rw [hu.pushed_eq]
    rw [hpushed₁, ht₀.pushed_eq] at hrest
    cases ok with
    | true => exact .pushed hrest
    | false =>
      have hroom := hfull rfl
      exact .refused (by omega) hrest

theorem consumerCall_safe (hN : N ∣ 2^32) (h : CqHolds N t.1 t.2) (intEnabled : Bool) (polls : ℕ)
    (c : ConsumerCall) :
    (consumerCall N intEnabled (polls+1) c).Safe (ByProducer N) (ByConsumer N) (fun r u =>
      CqHolds N u.1 u.2 ∧ t.2.pushed <+: u.2.pushed ∧
      (r = none → u.2.popped = t.2.popped ∧ t.2.pushed.length < t.2.popped + c.gets) ∧
      ∀ es, r = some es → u.2.popped = t.2.popped + c.removes ∧
        t.2.popped + c.gets ≤ u.2.pushed.length ∧
        (u.2.pushed.drop t.2.popped).take c.gets = es) t := by
  cases c with
  | popNonblock =>
    apply (cqPopNonblock_safe hN h).seq byProducer_rely
    rintro r t₁ ⟨h₁,hpre₁,hpopped₁,hle₁,hslice₁,hnone₁⟩ u hu
    have hpre := hu.pushed_extends
    refine ⟨hu.holds h₁, hpre₁.trans hpre, ?_, ?_⟩
    · intro hr
      have hr := Option.map_eq_none_iff.mp hr
      have hempty := hnone₁ hr
      rw [hr] at hpopped₁
      exact ⟨hu.popped_eq.trans hpopped₁, by rw [hempty]; exact Nat.lt_succ_self _⟩
    · intro es hes
      obtain ⟨e,rfl,rfl⟩ := Option.map_eq_some_iff.mp hes
      have hle := hpopped₁ ▸ hle₁
      exact ⟨hu.popped_eq.trans hpopped₁, hle.trans hpre.length_le,
        (slice_extends hpre hle).trans hslice₁⟩
  | popNNoblk n =>
    refine (cqPopNNoblk_safe hN h intEnabled polls n).mono ?_
    rintro r u ⟨hu,hpre,hpopped,hnone,hslice⟩
    refine ⟨hu, hpre, ?_, ?_⟩
    · rintro rfl
      exact ⟨hpopped, hnone rfl⟩
    · rintro es rfl
      refine ⟨hpopped, ?_, hslice es rfl⟩
      exact hpopped ▸ hu.popped_le
  | peek =>
    apply (cqPeek_safe hN h).seq byProducer_rely
    rintro r t₁ ⟨h₁,hpre₁,hpopped₁,hnone₁,hslice₁⟩ u hu
    have hpre := hu.pushed_extends
    refine ⟨hu.holds h₁, hpre₁.trans hpre, fun hr => ⟨hu.popped_eq.trans hpopped₁, ?_⟩, ?_⟩
    · rw [hnone₁ (Option.map_eq_none_iff.mp hr)]
      exact Nat.lt_succ_self _
    intro es hes
    obtain ⟨e,rfl,rfl⟩ := Option.map_eq_some_iff.mp hes
    have hlen := congrArg List.length (hslice₁ e rfl)
    rw [List.length_take, List.length_drop, List.length_singleton] at hlen
    have hle : t.2.popped + 1 ≤ t₁.2.pushed.length := by omega
    exact ⟨hu.popped_eq.trans hpopped₁, hle.trans hpre.length_le,
      (slice_extends hpre hle).trans (hslice₁ e rfl)⟩

theorem consumer_safe (hN : N ∣ 2^32) (h : CqHolds N t.1 t.2) (intEnabled : Bool) (polls : ℕ)
    (cs : List ConsumerCall) :
    (calls N (consumerCall N intEnabled (polls+1)) cs).Safe (ByProducer N) (ByConsumer N)
      (fun as u => CqHolds N u.1 u.2 ∧ t.2.pushed <+: u.2.pushed ∧
        Consumed u.2.pushed t.2.popped cs as u.2.popped) t := by
  induction cs generalizing t with
  | nil => exact fun u hu => ⟨hu.holds h, hu.pushed_extends, hu.popped_eq ▸ .nil _⟩
  | cons c cs ih =>
    apply Shared.Safe.load_bind byConsumer_rely.refl
    intro t₀ ht₀
    have h₀ := ht₀.holds h
    have hcount := h₀.count_eq
    apply (consumerCall_safe hN h₀ intEnabled polls c).seq byProducer_rely
    rintro r t₁ ⟨h₁,hpre₁,hnone,hsome⟩
    apply (ih h₁).seq byProducer_rely
    rintro as t₂ ⟨h₂,hpre₂,hrest⟩ u hu
    have hpre := hpre₂.trans hu.pushed_extends
    refine ⟨hu.holds h₂, ht₀.pushed_extends.trans (hpre₁.trans hpre), ?_⟩
    have hrest' := hrest.mono hu.pushed_extends
    rw [hu.popped_eq, ← ht₀.popped_eq]
    cases r with
    | none =>
      obtain ⟨hpopped₁,hfew⟩ := hnone rfl
      have hle := h₀.popped_le
      rw [hpopped₁] at hrest'
      exact .none (by omega) hrest'
    | some es =>
      obtain ⟨hpopped₁,hle,rfl⟩ := hsome es rfl
      rw [hpopped₁] at hrest'
      rw [← slice_extends hpre hle]
      exact .some (hle.trans hpre.length_le) hrest'

end Run

/-- An empty queue holds no elements, whatever its buffer does. -/
theorem cqInit_holds {α : Type} {N : ℕ} (hN : N ∣ 2^32) (zero : α) :
    CqHolds N (cqInit zero) ⟨[],0⟩ := by
  have hN0 : 0 < N := Nat.pos_of_dvd_of_pos hN (by decide)
  exact ⟨by simp [cqInit], by simp [cqInit], le_rfl, by simpa using hN0, by simp⟩

/-- Whatever the producer and the consumer call, and however their accesses to the queue are
interleaved, no assertion fails and no access leaves the buffer. In the end the consumer has got
the first elements that the producer has put into the queue, each one once and in order, and fewer
than `N` are left; and the queue has turned a call down only where it was too full, or too empty,
for it when it began. -/
theorem cq_interleaved {α : Type} {N : ℕ} (hN : N ∣ 2^32) (zero : α)
    (pushes : List (ProducerCall α)) (hpushes : ∀ c ∈ pushes, c.elems ≠ [])
    (pops : List ConsumerCall) (intEnabled : Bool) (polls : ℕ) :
    Ends Pair.Step (fun c => ∃ oks as log popped, c.left = .done oks ∧ c.right = .done as ∧
        Produced N [] pushes oks log ∧ Consumed log 0 pops as popped ∧
        popped ≤ log.length ∧ log.length < popped + N)
      ⟨calls N (producerCall N) pushes, calls N (consumerCall N intEnabled (polls+1)) pops,
        cqInit zero⟩ := by
  have hinit := cqInit_holds hN zero
  have hends := Pair.ends_of_safe byConsumer_rely byProducer_rely (fun _ _ h => h)
    (fun _ _ h => h) (producer_safe (t := (cqInit zero, ⟨[],0⟩)) hN hinit pushes hpushes)
    (consumer_safe (t := (cqInit zero, ⟨[],0⟩)) hN hinit intEnabled polls pops)
  refine hends.mono fun c hc => ?_
  obtain ⟨oks,as,g,hleft,hright,⟨hheld,hproduced⟩,-,-,hconsumed⟩ := hc
  exact ⟨oks, as, g.pushed, g.popped, hleft, hright, hproduced, hconsumed, hheld.popped_le,
    hheld.room⟩

theorem cq_interleaved_bytes :
    Ends Pair.Step (fun c => ∃ oks as log popped, c.left = .done oks ∧ c.right = .done as ∧
        Produced 8192 [] [.push 1, .pushN [2,3]] oks log ∧
        Consumed log 0 [.peek, .popNNoblk 2] as popped ∧
        popped ≤ log.length ∧ log.length < popped + 8192)
      ⟨calls 8192 (producerCall 8192) [.push (1 : UInt8), .pushN [2,3]],
        calls 8192 (consumerCall 8192 true 1) [.peek, .popNNoblk 2], cqInit 0⟩ :=
  cq_interleaved ⟨524288,rfl⟩ 0 _ (by decide) _ true 0

end DistributedPis
