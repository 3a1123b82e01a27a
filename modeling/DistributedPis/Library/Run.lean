import Mathlib

/-! Runs of a partial step function: invariants carry over from one step to all of them. -/
namespace DistributedPis.Library
variable {σ α : Type*}

/-- What every successful step preserves holds at the end of a run. -/
theorem foldlM_invariant {P : σ → Prop} {step : σ → α → Option σ}
    (hstep : ∀ s a t, P s → step s a = some t → P t) {xs : List α} {s t : σ} (hs : P s)
    (h : xs.foldlM step s = some t) : P t := by
  induction xs generalizing s with
  | nil => cases h; exact hs
  | cons x xs ih =>
    rw [List.foldlM_cons] at h
    obtain ⟨u,hu,ht⟩ := Option.bind_eq_some_iff.mp h
    exact ih (hstep s x u hs hu) ht

/-- The same for what a property says about the steps taken so far. -/
theorem foldlM_history {P : List α → σ → Prop} {step : σ → α → Option σ} {s : σ}
    (hstep : ∀ xs a t u, P xs t → step t a = some u → P (xs ++ [a]) u) (hs : P [] s) {xs : List α}
    {t : σ} (h : xs.foldlM step s = some t) : P xs t := by
  induction xs using List.reverseRecOn generalizing t with
  | nil => cases h; exact hs
  | append_singleton xs x ih =>
    rw [List.foldlM_append] at h
    obtain ⟨u,hu,h⟩ := Option.bind_eq_some_iff.mp h
    rw [List.foldlM_cons] at h
    obtain ⟨v,hv,h⟩ := Option.bind_eq_some_iff.mp h
    cases h
    exact hstep xs x u t (ih hu) hv

/-- Every step of the run meets a condition on the state before it. -/
def Meets (step : σ → α → Option σ) (C : σ → α → Prop) : σ → List α → Prop
  | _, [] => True
  | s, x::xs => C s x ∧ ∀ t, step s x = some t → Meets step C t xs

instance Meets.decidable (step : σ → α → Option σ) (C : σ → α → Prop)
    [∀ s a, Decidable (C s a)] : ∀ s xs, Decidable (Meets step C s xs)
  | _, [] => isTrue trivial
  | s, x::xs =>
    have : Decidable (∀ t, step s x = some t → Meets step C t xs) :=
      match step s x with
      | none => isTrue fun _ ht => nomatch ht
      | some u => @decidable_of_iff _ (Meets step C u xs)
          ⟨fun hu _ ht => Option.some.inj ht ▸ hu, fun ht => ht u rfl⟩
          (Meets.decidable step C u xs)
    inferInstanceAs (Decidable (_ ∧ _))

/-- What every step that meets the condition preserves holds at the end of such a run. -/
theorem foldlM_invariant_meets {P : σ → Prop} {C : σ → α → Prop} {step : σ → α → Option σ}
    (hstep : ∀ s a t, P s → C s a → step s a = some t → P t) {xs : List α} {s t : σ} (hs : P s)
    (hmeets : Meets step C s xs) (h : xs.foldlM step s = some t) : P t := by
  induction xs generalizing s with
  | nil => cases h; exact hs
  | cons x xs ih =>
    rw [List.foldlM_cons] at h
    obtain ⟨u,hu,ht⟩ := Option.bind_eq_some_iff.mp h
    exact ih (hstep s x u hs hmeets.1 hu) (hmeets.2 u hu) ht

/-- A condition on every step, as one on every way to split the run. -/
theorem meets_iff_splits {step : σ → α → Option σ} {C : σ → α → Prop} {s : σ} {xs : List α} :
    Meets step C s xs ↔
      ∀ ys x zs, xs = ys ++ x::zs → ∀ t, ys.foldlM step s = some t → C t x := by
  induction xs generalizing s with
  | nil => simp [Meets]
  | cons a xs ih =>
    constructor
    · rintro ⟨ha,hrest⟩ ys x zs hxs t ht
      cases ys with
      | nil =>
        obtain ⟨rfl,-⟩ := List.cons.inj hxs
        cases ht
        exact ha
      | cons y ys =>
        obtain ⟨rfl,hys⟩ := List.cons.inj hxs
        rw [List.foldlM_cons] at ht
        obtain ⟨u,hu,ht⟩ := Option.bind_eq_some_iff.mp ht
        exact ih.mp (hrest u hu) ys x zs hys t ht
    · intro h
      refine ⟨h [] a xs rfl s rfl, fun u hu => ih.mpr (fun ys x zs hxs t ht => ?_)⟩
      refine h (a::ys) x zs (by rw [hxs, List.cons_append]) t ?_
      rw [List.foldlM_cons, hu]
      exact ht

theorem meets_of_forall {C : σ → α → Prop} {step : σ → α → Option σ} (h : ∀ s a, C s a) {s : σ}
    {xs : List α} : Meets step C s xs := by
  induction xs generalizing s with
  | nil => trivial
  | cons x xs ih => exact ⟨h s x, fun t _ => ih⟩

theorem Meets.mono {C D : σ → α → Prop} {step : σ → α → Option σ} (hCD : ∀ s a, C s a → D s a)
    {s : σ} {xs : List α} (h : Meets step C s xs) : Meets step D s xs := by
  induction xs generalizing s with
  | nil => trivial
  | cons x xs ih => exact ⟨hCD s x h.1, fun t ht => ih (h.2 t ht)⟩

theorem Meets.of_append {C : σ → α → Prop} {step : σ → α → Option σ} {s : σ} {xs ys : List α}
    (h : Meets step C s (xs ++ ys)) : Meets step C s xs := by
  induction xs generalizing s with
  | nil => trivial
  | cons x xs ih => exact ⟨h.1, fun t ht => ih (h.2 t ht)⟩

/-- What every step that meets the condition preserves holds before every step of such a run. -/
theorem Meets.invariant {P : σ → Prop} {C : σ → α → Prop} {step : σ → α → Option σ}
    (hstep : ∀ s a t, P s → C s a → step s a = some t → P t) {xs : List α} {s : σ} (hs : P s)
    (h : Meets step C s xs) : Meets step (fun s a => P s ∧ C s a) s xs := by
  induction xs generalizing s with
  | nil => trivial
  | cons x xs ih => exact ⟨⟨hs, h.1⟩, fun t ht => ih (hstep s x t hs h.1 ht) (h.2 t ht)⟩

/-- Bookkeeping beside the states does not change which steps meet a condition on them. -/
theorem meets_map {τ : Type*} {step : σ → α → Option σ} {step' : τ → α → Option τ} (f : τ → σ)
    {C : σ → α → Prop} (hf : ∀ x a, (step' x a).map f = step (f x) a) {x : τ} {xs : List α} :
    Meets step' (fun x a => C (f x) a) x xs ↔ Meets step C (f x) xs := by
  induction xs generalizing x with
  | nil => exact Iff.rfl
  | cons a xs ih =>
    refine and_congr_right fun _ => ?_
    rw [← hf]
    simp only [Option.map_eq_some_iff, forall_exists_index, and_imp, forall_apply_eq_imp_iff₂, ih]

/-- A property of every step of a run, as the condition that an invariant makes of it. -/
theorem splits_iff_meets {P : σ → Prop} {C D : σ → α → Prop} {step : σ → α → Option σ}
    (hstep : ∀ s a t, P s → step s a = some t → P t) (hiff : ∀ s a, P s → (D s a ↔ C s a))
    {s : σ} {xs : List α} (hs : P s) :
    (∀ ys x zs, xs = ys ++ x::zs → ∀ t, ys.foldlM step s = some t → D t x) ↔
      Meets step C s xs := by
  rw [meets_iff_splits]
  refine forall₄_congr (fun ys x zs _ => forall₂_congr fun t ht => ?_)
  exact hiff t x (foldlM_invariant hstep hs ht)

/-- A run in which every step succeeds. -/
theorem foldlM_isSome {step : σ → α → Option σ} {xs : List α} {s : σ}
    (h : ∀ ys x zs, xs = ys ++ x::zs → ∀ t, ys.foldlM step s = some t → (step t x).isSome = true) :
    (xs.foldlM step s).isSome = true := by
  induction xs generalizing s with
  | nil => rfl
  | cons x xs ih =>
    obtain ⟨u,hu⟩ := Option.isSome_iff_exists.mp (h [] x xs rfl s rfl)
    rw [List.foldlM_cons, hu]
    refine ih fun ys y zs hxs t ht => h (x::ys) y zs (by rw [hxs, List.cons_append]) t ?_
    rw [List.foldlM_cons, hu]
    exact ht

end DistributedPis.Library
