import Mathlib

/-! A ring of slots that holds a list from its front slot on, and runs of a step function that
answers every call. -/
namespace DistributedPis.Library

section Ring
variable {α : Type*} {slots slots' : ℕ → α} {cap front n : ℕ}

/-- The `n` slots from `front` on, around a ring of `cap` slots. -/
def ring (slots : ℕ → α) (cap front n : ℕ) : List α :=
  (List.range n).map fun k => slots ((front+k) % cap)

@[simp] theorem ring_zero : ring slots cap front 0 = [] := rfl

@[simp] theorem ring_length : (ring slots cap front n).length = n := by simp [ring]

theorem ring_congr (h : ∀ k < n, slots' ((front+k) % cap) = slots ((front+k) % cap)) :
    ring slots' cap front n = ring slots cap front n :=
  List.map_congr_left (fun k hk => h k (List.mem_range.mp hk))

/-- Less than one round apart, two slots differ. -/
theorem slot_ne {j k : ℕ} (hj : j < k) (hk : k < cap) : (front+j) % cap ≠ (front+k) % cap := by
  intro h
  have hmod : j ≡ k [MOD cap] := Nat.ModEq.add_left_cancel' front h
  have heq := hmod.eq_of_lt_of_lt (hj.trans hk) hk
  omega

/-- What is written behind the last slot is the new last element. -/
theorem ring_push (x : α) (hn : n < cap) (hx : ∀ i, i ≠ (front+n) % cap → slots' i = slots i)
    (hself : slots' ((front+n) % cap) = x) :
    ring slots' cap front (n+1) = ring slots cap front n ++ [x] := by
  rw [ring, List.range_succ, List.map_append, List.map_singleton, hself]
  congr 1
  exact ring_congr fun k hk => hx _ (slot_ne hk hn)

/-- The front slot is the first element. -/
theorem ring_pop : ring slots cap front (n+1) =
    slots (front % cap) :: ring slots cap ((front+1) % cap) n := by
  rw [ring, List.range_succ_eq_map, List.map_cons, List.map_map, Nat.add_zero]
  congr 1
  refine List.map_congr_left fun k _ => ?_
  have hk : front + (k+1) = front+1+k := by omega
  simp only [Function.comp_apply, Nat.succ_eq_add_one, Nat.mod_add_mod, hk]

end Ring

section Answers
variable {σ τ α β : Type*}

/-- Every call has an answer and a state after it. -/
def answers (step : σ → α → β × σ) : σ → List α → List β × σ
  | s, [] => ([],s)
  | s, a::as =>
    let r := answers step (step s a).2 as
    ((step s a).1 :: r.1, r.2)

/-- The same for a step that can fail. -/
def answersM (step : σ → α → Option (β × σ)) : σ → List α → Option (List β × σ)
  | s, [] => some ([],s)
  | s, a::as => do
    let (b,s) ← step s a
    let (bs,s) ← answersM step s as
    some (b::bs, s)

/-- A step function that follows another one succeeds in every run, with the same answers. -/
theorem answersM_simulates {R : σ → τ → Prop} {step : σ → α → Option (β × σ)}
    {spec : τ → α → β × τ}
    (hstep : ∀ s t a, R s t → ∃ s', step s a = some ((spec t a).1, s') ∧ R s' (spec t a).2)
    {s : σ} {t : τ} (h : R s t) (as : List α) :
    ∃ s', answersM step s as = some ((answers spec t as).1, s') ∧ R s' (answers spec t as).2 := by
  induction as generalizing s t with
  | nil => exact ⟨s, rfl, h⟩
  | cons a as ih =>
    obtain ⟨u,hu,hru⟩ := hstep s t a h
    obtain ⟨v,hv,hrv⟩ := ih hru
    refine ⟨v, ?_, hrv⟩
    simp only [answersM, hu, hv, Option.bind_eq_bind, Option.bind_some]
    rfl

/-- A step function that is seen through `view` as another one is seen so in every run. -/
theorem answersM_map {view : σ → τ} {step : σ → α → Option (β × σ)}
    {spec : τ → α → Option (β × τ)}
    (hstep : ∀ s a, (step s a).map (fun r => (r.1, view r.2)) = spec (view s) a) (s : σ)
    (as : List α) :
    (answersM step s as).map (fun r => (r.1, view r.2)) = answersM spec (view s) as := by
  induction as generalizing s with
  | nil => rfl
  | cons a as ih =>
    rw [answersM, answersM, ← hstep]
    cases hs : step s a with
    | none => rfl
    | some r =>
      simp only [Option.bind_eq_bind, Option.bind_some, Option.map_some, ← ih]
      cases answersM step r.2 as <;> rfl

/-- A step function that follows another one wherever that one succeeds does so in every run. -/
theorem answersM_follows {R : σ → τ → Prop} {step : σ → α → Option (β × σ)}
    {spec : τ → α → Option (β × τ)}
    (hstep : ∀ s t a b t', R s t → spec t a = some (b,t') → ∃ s', step s a = some (b,s') ∧ R s' t')
    {s : σ} {t t' : τ} (h : R s t) {as : List α} {bs : List β}
    (hspec : answersM spec t as = some (bs,t')) :
    ∃ s', answersM step s as = some (bs,s') ∧ R s' t' := by
  induction as generalizing s t bs with
  | nil =>
    cases hspec
    exact ⟨s, rfl, h⟩
  | cons a as ih =>
    obtain ⟨⟨b,u⟩,hu,hspec⟩ := Option.bind_eq_some_iff.mp hspec
    obtain ⟨⟨bs',v⟩,hv,hspec⟩ := Option.bind_eq_some_iff.mp hspec
    cases hspec
    obtain ⟨s',hs',hr⟩ := hstep s t a b u h hu
    obtain ⟨s'',hs'',hr'⟩ := ih hr hv
    refine ⟨s'', ?_, hr'⟩
    simp only [answersM, hs', hs'', Option.bind_eq_bind, Option.bind_some]

/-- Two step functions that succeed and fail together and give the same answers -/
theorem answersM_eq {R : σ → τ → Prop} {step : σ → α → Option (β × σ)}
    {spec : τ → α → Option (β × τ)}
    (hstep : ∀ s t a, R s t → step s a = none ∧ spec t a = none ∨
      ∃ b s' t', step s a = some (b,s') ∧ spec t a = some (b,t') ∧ R s' t')
    {s : σ} {t : τ} (h : R s t) (as : List α) :
    (answersM step s as).map Prod.fst = (answersM spec t as).map Prod.fst := by
  induction as generalizing s t with
  | nil => rfl
  | cons a as ih =>
    obtain ⟨hs,ht⟩ | ⟨b,s',t',hs,ht,hr⟩ := hstep s t a h
    · rw [answersM, answersM, hs, ht]
      rfl
    · have hrest := ih hr
      simp only [answersM, hs, ht, Option.bind_eq_bind, Option.bind_some]
      cases hu : answersM step s' as with
      | none =>
        cases hv : answersM spec t' as with
        | none => rfl
        | some v => rw [hu, hv] at hrest; cases hrest
      | some u =>
        cases hv : answersM spec t' as with
        | none => rw [hu, hv] at hrest; cases hrest
        | some v =>
          rw [hu, hv] at hrest
          have heq : u.1 = v.1 := Option.some.inj hrest
          simp only [Option.bind_some, Option.map_some, heq]

end Answers

end DistributedPis.Library
