import Mathlib

/-! Singly linked lists over a map of next pointers. A null-terminated list is a path that
ends in the null pointer. -/
namespace DistributedPis.Library
variable {α : Type*}

/-- Following `next` from `p` visits exactly `xs` and then stands at `q`. -/
def Path (next : α → Option α) : Option α → List α → Option α → Prop
  | p, [], q => p = q
  | p, x::xs, q => p = some x ∧ Path next (next x) xs q

section Basic
variable {next next' : α → Option α} {p q r : Option α} {x : α} {xs ys : List α}

@[simp] theorem path_nil : Path next p [] q ↔ p = q := Iff.rfl

@[simp] theorem path_cons : Path next p (x::xs) q ↔ p = some x ∧ Path next (next x) xs q := Iff.rfl

theorem path_append : Path next p (xs ++ ys) q ↔ ∃ m, Path next p xs m ∧ Path next m ys q := by
  induction xs generalizing p with
  | nil => simp
  | cons x xs ih => simp only [List.cons_append, path_cons, ih]; tauto

theorem path_concat : Path next p (xs ++ [x]) q ↔ Path next p xs (some x) ∧ next x = q := by
  rw [path_append]
  constructor
  · rintro ⟨m,hm,rfl,hq⟩; exact ⟨hm,hq⟩
  · rintro ⟨hm,hq⟩; exact ⟨_,hm,rfl,hq⟩

/-- Only the pointers of the visited nodes matter. -/
theorem path_congr (h : ∀ x ∈ xs, next' x = next x) (hp : Path next p xs q) :
    Path next' p xs q := by
  induction xs generalizing p with
  | nil => exact hp
  | cons x xs ih =>
    refine ⟨hp.1, ?_⟩
    rw [h x (List.mem_cons_self ..)]
    exact ih (fun y hy => h y (List.mem_cons_of_mem _ hy)) hp.2

/-- A null-terminated list is determined by its first pointer. -/
theorem path_unique (hx : Path next p xs none) (hy : Path next p ys none) : xs = ys := by
  induction xs generalizing p ys with
  | nil =>
    obtain rfl := hx
    cases ys with
    | nil => rfl
    | cons y ys => cases hy.1
  | cons x xs ih =>
    obtain ⟨rfl,hx⟩ := hx
    cases ys with
    | nil => cases hy
    | cons y ys =>
      obtain ⟨he,hy⟩ := hy
      obtain rfl := Option.some.inj he
      rw [ih hx hy]

/-- It cannot visit a node twice: the rest of the list would be two lists of different length. -/
theorem path_nodup (h : Path next p xs none) : xs.Nodup := by
  induction xs generalizing p with
  | nil => exact List.nodup_nil
  | cons x xs ih =>
    refine List.nodup_cons.mpr ⟨fun hx => ?_, ih h.2⟩
    obtain ⟨as,bs,rfl⟩ := List.append_of_mem hx
    obtain ⟨m,_,hm,hb⟩ := path_append.mp h.2
    have hlen := congrArg List.length (path_unique h.2 hb)
    simp at hlen
    omega

/-- A path is a prefix of the list it belongs to. -/
theorem path_splits (hx : Path next p xs (some x)) (hy : Path next p ys none) :
    ∃ zs, ys = xs ++ x::zs := by
  induction xs generalizing p ys with
  | nil =>
    obtain rfl := hx
    cases ys with
    | nil => cases hy
    | cons y ys =>
      obtain rfl := Option.some.inj hy.1
      exact ⟨ys,rfl⟩
  | cons z xs ih =>
    obtain ⟨rfl,hx⟩ := hx
    cases ys with
    | nil => cases hy
    | cons y ys =>
      obtain ⟨he,hy⟩ := hy
      obtain rfl := Option.some.inj he
      obtain ⟨zs,rfl⟩ := ih hx hy
      exact ⟨zs,rfl⟩

/-- Every node before the end of a path has a next one. -/
theorem path_next (hp : Path next p xs (some y)) (hx : x ∈ xs) :
    ∃ zs, Path next p zs (some x) ∧ next x ≠ none := by
  obtain ⟨as,bs,rfl⟩ := List.append_of_mem hx
  obtain ⟨_,has,rfl,hbs⟩ := path_append.mp hp
  refine ⟨as, has, fun hnone => ?_⟩
  rw [hnone] at hbs
  cases bs with
  | nil => cases hbs
  | cons b bs => cases hbs.1

/-- The list ends within `n` nodes, or there is a path of `n` nodes. -/
theorem path_or (next : α → Option α) (p : Option α) (n : ℕ) :
    (∃ xs, Path next p xs none ∧ xs.length ≤ n) ∨
      ∃ xs x, Path next p xs (some x) ∧ xs.length = n := by
  induction n with
  | zero =>
    cases p with
    | none => exact .inl ⟨[],rfl,le_rfl⟩
    | some x => exact .inr ⟨[],x,rfl,rfl⟩
  | succ n ih =>
    obtain ⟨xs,hxs,hlen⟩ | ⟨xs,x,hxs,hlen⟩ := ih
    · exact .inl ⟨xs,hxs,hlen.trans n.le_succ⟩
    · have hsnoc : Path next p (xs ++ [x]) (next x) := path_concat.mpr ⟨hxs,rfl⟩
      have hlen' : (xs ++ [x]).length = n+1 := by rw [List.length_append, hlen]; rfl
      cases hn : next x with
      | none => exact .inl ⟨_, hn ▸ hsnoc, hlen'.le⟩
      | some y => exact .inr ⟨_, y, hn ▸ hsnoc, hlen'⟩

/-- Without a cycle, and with next pointers only within a finite set, every list ends. -/
theorem path_ends {s : Finset α} (hacyclic : ∀ xs x, Path next p xs (some x) → x ∉ xs)
    (hs : ∀ xs x, Path next p xs (some x) → next x ≠ none → x ∈ s) :
    ∃ xs, Path next p xs none ∧ xs.length ≤ s.card+1 := by
  obtain hends | ⟨xs,x,hp,hlen⟩ := path_or next p (s.card+1)
  · exact hends
  have hnodup : xs.Nodup := by
    clear hlen
    induction xs using List.reverseRecOn generalizing x with
    | nil => exact List.nodup_nil
    | append_singleton xs y ih =>
      have hy := (path_concat.mp hp).1
      rw [← List.concat_eq_append]
      exact (ih y hy).concat (hacyclic _ _ hy)
  classical
  have hsub : xs.toFinset ⊆ s := by
    intro y hy
    obtain ⟨zs,hz,hnext⟩ := path_next hp (List.mem_toFinset.mp hy)
    exact hs _ _ hz hnext
  have hcard := Finset.card_le_card hsub
  rw [List.toFinset_card_of_nodup hnodup, hlen] at hcard
  omega

/-- At most `n` nodes from `p` on. -/
def follow (next : α → Option α) : ℕ → Option α → List α
  | _, none => []
  | 0, some _ => []
  | n+1, some x => x :: follow next n (next x)

theorem path_follow {n : ℕ} (hp : Path next p xs none) (hn : xs.length ≤ n) :
    follow next n p = xs := by
  induction xs generalizing p n with
  | nil => obtain rfl := hp; cases n <;> rfl
  | cons x xs ih =>
    obtain ⟨rfl,hp⟩ := hp
    obtain ⟨n,rfl⟩ : ∃ k, n = k+1 := ⟨n-1, by simp at hn; omega⟩
    rw [follow, ih hp (by simpa using hn)]

end Basic

section Update
variable [DecidableEq α] {next : α → Option α} {p q r : Option α} {x y : α} {xs ys : List α}

theorem path_update (hx : x ∉ xs) (hp : Path next p xs q) :
    Path (Function.update next x r) p xs q :=
  path_congr (fun _ hy => Function.update_of_ne (ne_of_mem_of_not_mem hy hx) _ _) hp

/-- Pushing a node in front. -/
theorem path_push (hx : x ∉ xs) (hp : Path next p xs q) :
    Path (Function.update next x p) (some x) (x::xs) q :=
  ⟨rfl, by rw [Function.update_self]; exact path_update hx hp⟩

/-- Redirecting the last node. -/
theorem path_redirect (hx : x ∉ xs) (hp : Path next p (xs ++ [x]) q) :
    Path (Function.update next x r) p (xs ++ [x]) r :=
  path_concat.mpr ⟨path_update hx (path_concat.mp hp).1, Function.update_self ..⟩

/-- Linking a new node behind the last one. -/
theorem path_snoc (hy : y ∉ xs ++ [x]) (hp : Path next p (xs ++ [x]) none) :
    Path (Function.update (Function.update next y none) x (some y)) p (xs ++ [x] ++ [y]) none := by
  have hx : x ∉ xs := by
    have hnd := path_nodup hp
    simp [List.nodup_append] at hnd
    grind
  have hne : y ≠ x := fun hc => hy (by simp [hc])
  refine path_concat.mpr ⟨path_redirect hx (path_update hy hp), ?_⟩
  rw [Function.update_of_ne hne, Function.update_self]

/-- Unlinking the node behind `x`. -/
theorem path_unlink (hnd : (xs ++ x::y::ys).Nodup) (hp : Path next p (xs ++ x::y::ys) q) :
    Path (Function.update next x (next y)) p (xs ++ x::ys) q := by
  have hsplit : xs ++ x::y::ys = (xs ++ [x]) ++ ([y] ++ ys) := by simp
  have hjoin : xs ++ x::ys = (xs ++ [x]) ++ ys := by simp
  rw [hsplit] at hp hnd
  obtain ⟨_,hpre,hrest⟩ := path_append.mp hp
  obtain ⟨rfl,hsuf⟩ := hrest
  have hx : x ∉ xs ∧ x ∉ ys := by
    simp only [List.nodup_append, List.mem_append, List.mem_cons] at hnd
    grind
  rw [hjoin]
  exact path_append.mpr ⟨_, path_redirect hx.1 hpre, path_update hx.2 hsuf⟩

end Update

end DistributedPis.Library
