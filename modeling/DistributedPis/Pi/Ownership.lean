import DistributedPis.Pi.Heap

/-! Which entry every byte of the memory belongs to. An entry stands for its receiver as long as
nobody else writes to its bytes. -/
namespace DistributedPis
open Library

/-- The `fd` itself, a `msg_t` by its address, or the data block of a `msg_t`. -/
inductive Part where
  | fd
  | msg (a : ℕ)
  | data (a : ℕ)
  deriving DecidableEq

abbrev Owner := ℕ → Option (Fin 17 × Part)

/-- The `n` bytes from `a` on belong to part `q`. -/
def Owns (o : Owner) (q : Fin 17 × Part) (a n : ℕ) : Prop := ∀ k < n, o (a+k) = some q

/-- `o'` may give away bytes that nobody owned. -/
def Extends (o o' : Owner) : Prop := ∀ x q, o x = some q → o' x = some q

/-- Only bytes of the parts in `P` and bytes that nobody owns have changed. -/
structure Touches (o : Owner) (P : Fin 17 × Part → Prop) (s s' : Board) : Prop where
  mem : ∀ x q, o x = some q → ¬ P q → s'.mem x = s.mem x
  fileTable : s'.fileTable = s.fileTable
  brk : s.brk ≤ s'.brk
  dataBlock : ∀ a i, o a = some (i,.msg a) → ¬ P (i,.msg a) → s'.dataBlock a = s.dataBlock a

section Basic
variable {o o' : Owner} {q : Fin 17 × Part} {P Q : Fin 17 × Part → Prop} {s s' s'' : Board}
  {a n : ℕ}

lemma Owns.sub (h : Owns o q a n) {d k : ℕ} (hk : d+k ≤ n) : Owns o q (a+d) k :=
  fun j hj => by rw [Nat.add_assoc]; exact h (d+j) (by omega)

lemma Owns.extend (h : Owns o q a n) (ho : Extends o o') : Owns o' q a n :=
  fun k hk => ho _ _ (h k hk)

lemma Extends.refl (o : Owner) : Extends o o := fun _ _ h => h

/-- Hand the free bytes from `a` on to part `q`. -/
def give (o : Owner) (q : Fin 17 × Part) (a n : ℕ) : Owner :=
  fun x => if a ≤ x ∧ x < a+n then some q else o x

lemma give_owns (o : Owner) (q : Fin 17 × Part) (a n : ℕ) : Owns (give o q a n) q a n :=
  fun k hk => if_pos ⟨by omega, by omega⟩

lemma give_extends (h : ∀ x, a ≤ x → o x = none) : Extends o (give o q a n) := by
  intro x p hx
  refine (if_neg (fun hc => ?_)).trans hx
  rw [h x hc.1] at hx
  cases hx

lemma give_outside (o : Owner) (q : Fin 17 × Part) {x : ℕ} (h : a+n ≤ x) :
    give o q a n x = o x := if_neg (fun hc => by omega)

namespace Touches

lemma refl (o : Owner) (P : Fin 17 × Part → Prop) (s : Board) : Touches o P s s :=
  ⟨fun _ _ _ _ => rfl, rfl, le_rfl, fun _ _ _ _ => rfl⟩

lemma trans (h : Touches o P s s') (h' : Touches o P s' s'') : Touches o P s s'' :=
  ⟨fun x q hx hq => (h'.mem x q hx hq).trans (h.mem x q hx hq), h'.fileTable.trans h.fileTable,
    h.brk.trans h'.brk,
    fun a i ha hi => (h'.dataBlock a i ha hi).trans (h.dataBlock a i ha hi)⟩

lemma mono (h : Touches o P s s') (hPQ : ∀ q, P q → Q q) : Touches o Q s s' :=
  ⟨fun x q hx hq => h.mem x q hx (fun hc => hq (hPQ q hc)), h.fileTable, h.brk,
    fun a i ha hi => h.dataBlock a i ha (fun hc => hi (hPQ _ hc))⟩

lemma restrict (h : Touches o' P s s') (ho : Extends o o') : Touches o P s s' :=
  ⟨fun x q hx hq => h.mem x q (ho _ _ hx) hq, h.fileTable, h.brk,
    fun a i ha hi => h.dataBlock a i (ho _ _ ha) hi⟩

/-- Overwriting bytes that belong to parts in `P` or to nobody. -/
lemma fill {d : ℕ} {bs : List UInt8} (h : ∀ k < bs.length, ∀ q, o (d+k) = some q → P q) :
    Touches o P s {s with mem := fill s.mem d bs} := by
  refine ⟨fun x q hx hq => fill_outside (fun hc => ?_), rfl, le_rfl, fun _ _ _ _ => rfl⟩
  obtain ⟨hlo,hhi⟩ := hc
  have hx' : o (d+(x-d)) = some q := by rwa [Nat.add_sub_cancel' hlo]
  exact hq (h (x-d) (by omega) q hx')

lemma set32 {d : ℕ} (v : ℕ) (h : Owns o q d 4) (hq : P q) : Touches o P s (s.set32 d v) :=
  fill (fun k hk p hp => by rw [h k hk] at hp; cases hp; exact hq)

lemma set8 {d : ℕ} (v : UInt8) (h : Owns o q d 1) (hq : P q) : Touches o P s (s.set8 d v) :=
  fill (fun k hk p hp => by rw [h k hk] at hp; cases hp; exact hq)

/-- The same for bytes that were free. -/
lemma set32_free {d : ℕ} (v : ℕ) (h : ∀ x, d ≤ x → o x = none) : Touches o P s (s.set32 d v) :=
  fill (fun k _ p hp => by rw [h _ (by omega)] at hp; cases hp)

lemma set8_free {d : ℕ} (v : UInt8) (h : ∀ x, d ≤ x → o x = none) : Touches o P s (s.set8 d v) :=
  fill (fun k _ p hp => by rw [h _ (by omega)] at hp; cases hp)

end Touches

/-- A word inside a part that was not touched. -/
lemma Touches.get32 (h : Touches o P s s') {d : ℕ} (hown : Owns o q d 4) (hq : ¬ P q) :
    s'.get32 d = s.get32 d :=
  read32_congr (fun k hk => h.mem _ q (hown k hk) hq)

lemma Touches.fdAddr (h : Touches o P s s') (i : ℕ) : s'.fdAddr i = s.fdAddr i := by
  rw [Board.fdAddr, Board.fdAddr, h.fileTable]

end Basic

section Alloc
variable {h : Heap} {s s' : Board} {n d : ℕ}

lemma Heap.le_round (h : Heap) (n : ℕ) : n ≤ h.round n := by
  have hdiv := Nat.div_add_mod (n + h.align - 1) h.align
  have hmod := Nat.mod_lt (n + h.align - 1) h.align_pos
  have hpos := h.align_pos
  rw [Heap.round, Nat.mul_comm]
  omega

lemma Heap.round_lt (h : Heap) (n : ℕ) : h.round n < n + 8 := by
  have hdiv := Nat.div_add_mod (n + h.align - 1) h.align
  have hle := h.align_le
  have hpos := h.align_pos
  rw [Heap.round, Nat.mul_comm]
  omega

/-- What an allocation does. -/
lemma kmalloc_eq_some (hk : s.kmalloc h n = some (d,s')) : d = s.brk ∧
    s' = {s with mem := fill s.mem s.brk (List.replicate (h.round n) 0), brk := s.brk + h.round n} ∧
      s.brk + h.round n ≤ h.limit := by
  unfold Board.kmalloc at hk
  split at hk
  · rename_i hle
    obtain ⟨rfl,rfl⟩ := Prod.mk.inj (Option.some.inj hk)
    exact ⟨rfl, rfl, hle⟩
  · cases hk

lemma kmalloc_touches {o : Owner} {P : Fin 17 × Part → Prop} (hk : s.kmalloc h n = some (d,s'))
    (ho : ∀ x, s.brk ≤ x → o x = none) : Touches o P s s' := by
  obtain ⟨_,rfl,_⟩ := kmalloc_eq_some hk
  have hf : Touches o P s {s with mem := fill s.mem s.brk (List.replicate (h.round n) 0)} :=
    Touches.fill (fun k _ q hq => by rw [ho _ (by omega)] at hq; cases hq)
  exact ⟨hf.mem, rfl, Nat.le_add_right .., fun _ _ _ _ => rfl⟩

/-- The block is zeroed. -/
lemma kmalloc_zero (hk : s.kmalloc h n = some (d,s')) {k : ℕ} (hkn : k < h.round n) :
    s'.mem (d+k) = 0 := by
  obtain ⟨rfl,rfl,_⟩ := kmalloc_eq_some hk
  dsimp only
  rw [fill_inside (by simpa using hkn)]
  simp

end Alloc
end DistributedPis
