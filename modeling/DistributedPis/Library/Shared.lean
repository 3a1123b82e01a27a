import DistributedPis.Library.Link

/-! Two programs on one shared state, interleaved access by access, and rules of rely and guarantee
for them. A program is proved alone against whatever the other one may do to the state between two
of its accesses. The proofs are about the state together with a value of `γ` that they choose
themselves at every access, so that they can speak of what happened before. -/
namespace DistributedPis.Library
variable {σ γ α β δ : Type}

/-- A program that reads and changes a shared state; each access is atomic. -/
inductive Shared (σ α : Type) where
  | done (a : α)
  | fail
  | act (upd : σ → σ) (k : σ → Shared σ α)

namespace Shared

def bind : Shared σ α → (α → Shared σ β) → Shared σ β
  | done a, f => f a
  | fail, _ => fail
  | act upd k, f => act upd fun s => (k s).bind f

instance : Monad (Shared σ) where
  pure := done
  bind := bind

def load (f : σ → β) : Shared σ β := act id fun s => done (f s)

def store (upd : σ → σ) : Shared σ Unit := act upd fun _ => done ()

/-- The program stops for good when the condition does not hold. -/
def assert (c : Prop) [Decidable c] : Shared σ Unit := if c then done () else fail

/-- The program never fails and ends with `Q`, if the outside only makes changes in `R` between its
accesses; its own changes are in `G`. -/
def Safe (R G : σ × γ → σ × γ → Prop) (Q : α → σ × γ → Prop) : Shared σ α → σ × γ → Prop
  | done a, t => ∀ t', R t t' → Q a t'
  | fail, _ => False
  | act upd k, t => ∀ t', R t t' → ∃ g, G t' (upd t'.1, g) ∧ Safe R G Q (k t'.1) (upd t'.1, g)

/-- What the outside may do: any number of changes, also none. -/
structure Rely (R : σ × γ → σ × γ → Prop) : Prop where
  refl : ∀ t, R t t
  trans : ∀ t t' t'', R t t' → R t' t'' → R t t''

namespace Safe
variable {R G : σ × γ → σ × γ → Prop} {Q : α → σ × γ → Prop} {p : Shared σ α} {t t' : σ × γ}

theorem stable (hR : Rely R) (h : Safe R G Q p t) (ht : R t t') : Safe R G Q p t' := by
  cases p with
  | done a => exact fun u hu => h u (hR.trans _ _ _ ht hu)
  | fail => exact h
  | act upd k => exact fun u hu => h u (hR.trans _ _ _ ht hu)

/-- The rule of sequence. -/
theorem bind (hR : Rely R) {f : α → Shared σ β} {P : β → σ × γ → Prop}
    (h : Safe R G (fun a t => Safe R G P (f a) t) p t) : Safe R G P (p >>= f) t := by
  induction p generalizing t with
  | done a => exact h t (hR.refl t)
  | fail => exact h
  | act upd k ih =>
    intro t' ht
    obtain ⟨g,hg,hk⟩ := h t' ht
    exact ⟨g, hg, ih _ hk⟩

theorem mono {P : α → σ × γ → Prop} (h : Safe R G Q p t) (hQ : ∀ a t, Q a t → P a t) :
    Safe R G P p t := by
  induction p generalizing t with
  | done a => exact fun u hu => hQ _ _ (h u hu)
  | fail => exact h
  | act upd k ih =>
    intro t' ht
    obtain ⟨g,hg,hk⟩ := h t' ht
    exact ⟨g, hg, ih _ hk⟩

/-- A program, and what follows from how it ends. -/
theorem seq (hR : Rely R) (h : Safe R G Q p t) {f : α → Shared σ β} {P : β → σ × γ → Prop}
    (hf : ∀ a t, Q a t → Safe R G P (f a) t) : Safe R G P (p >>= f) t :=
  bind hR (h.mono hf)

theorem load_bind (hG : ∀ t, G t t) {f : σ → β} {k : β → Shared σ α}
    (h : ∀ t', R t t' → Safe R G Q (k (f t'.1)) t') : Safe R G Q (load f >>= k) t :=
  fun t' ht => ⟨t'.2, hG t', h t' ht⟩

theorem store_bind {upd : σ → σ} {k : Unit → Shared σ α}
    (h : ∀ t', R t t' → ∃ g, G t' (upd t'.1, g) ∧ Safe R G Q (k ()) (upd t'.1, g)) :
    Safe R G Q (store upd >>= k) t :=
  h

theorem assert_bind {c : Prop} [Decidable c] (hc : c) {k : Unit → Shared σ α}
    (h : Safe R G Q (k ()) t) : Safe R G Q (Shared.assert c >>= k) t := by
  rw [Shared.assert, if_pos hc]
  exact h

end Safe
end Shared

theorem Ends.mono {σ : Type} {step : σ → σ → Prop} {P Q : σ → Prop} {s : σ} (h : Ends step P s)
    (hPQ : ∀ t, P t → Q t) : Ends step Q s := by
  induction h with
  | intro s hend _ ih => exact .intro s (fun hs => hPQ _ (hend hs)) ih

/-- Two programs and the state they share. -/
structure Pair (σ α β : Type) where
  left : Shared σ α
  right : Shared σ β
  state : σ

namespace Pair

inductive Step : Pair σ α β → Pair σ α β → Prop
  | left (upd k q s) : Step ⟨.act upd k, q, s⟩ ⟨k s, q, upd s⟩
  | right (upd k p s) : Step ⟨p, .act upd k, s⟩ ⟨p, k s, upd s⟩

variable {R₁ G₁ R₂ G₂ : σ × γ → σ × γ → Prop} {P : α → σ × γ → Prop} {Q : β → σ × γ → Prop}

/-- Two programs that each stand the changes of the other one: every interleaving ends, without a
failure, with what both were proved to end with. -/
theorem ends_of_safe (hR₁ : Shared.Rely R₁) (hR₂ : Shared.Rely R₂)
    (h₁₂ : ∀ t t', G₁ t t' → R₂ t t') (h₂₁ : ∀ t t', G₂ t t' → R₁ t t') {p : Shared σ α}
    {q : Shared σ β} {t : σ × γ} (hp : p.Safe R₁ G₁ P t) (hq : q.Safe R₂ G₂ Q t) :
    Ends Step (fun c => ∃ a b g, c.left = .done a ∧ c.right = .done b ∧ P a (c.state,g) ∧
      Q b (c.state,g)) ⟨p,q,t.1⟩ := by
  induction p generalizing q t with
  | fail => exact hp.elim
  | done a =>
    induction q generalizing t with
    | fail => exact hq.elim
    | done b =>
      refine .intro _ (fun _ => ⟨a, b, t.2, rfl, rfl, hp t (hR₁.refl t), hq t (hR₂.refl t)⟩) ?_
      intro c hc
      cases hc
    | act upd k ih =>
      refine .intro _ (fun hend => absurd (.right ..) (hend _)) ?_
      intro c hc
      cases hc
      obtain ⟨g,hg,hk⟩ := hq t (hR₂.refl t)
      exact ih _ (hp.stable hR₁ (h₂₁ _ _ hg)) hk
  | act upd k ihp =>
    induction q generalizing t with
    | fail => exact hq.elim
    | done b =>
      refine .intro _ (fun hend => absurd (.left ..) (hend _)) ?_
      intro c hc
      cases hc
      obtain ⟨g,hg,hk⟩ := hp t (hR₁.refl t)
      exact ihp _ hk (hq.stable hR₂ (h₁₂ _ _ hg))
    | act upd' k' ihq =>
      refine .intro _ (fun hend => absurd (.left ..) (hend _)) ?_
      intro c hc
      cases hc with
      | left =>
        obtain ⟨g,hg,hk⟩ := hp t (hR₁.refl t)
        exact ihp _ hk (hq.stable hR₂ (h₁₂ _ _ hg))
      | right =>
        obtain ⟨g,hg,hk⟩ := hq t (hR₂.refl t)
        exact ihq _ (hp.stable hR₁ (h₂₁ _ _ hg)) hk

end Pair

end DistributedPis.Library
