import Mathlib

/-! Programs that send and receive values, and two of them on a lossless link. A program is
deterministic, so that all schedules of the two of them end alike: a run of each one alone is
enough to know how every run of both ends. -/
namespace DistributedPis.Library
variable {β α α' γ : Type}

/-- Every run ends, and in a state with `P`. -/
inductive Ends {σ : Type} (step : σ → σ → Prop) (P : σ → Prop) : σ → Prop
  | intro (s : σ) (hend : (∀ t, ¬step s t) → P s) (hnext : ∀ t, step s t → Ends step P t) :
    Ends step P s

namespace Ends
variable {σ : Type} {step : σ → σ → Prop} {P : σ → Prop} {s t : σ}

/-- Two different steps from one state can be followed by one step each to the same state. -/
def Diamond (step : σ → σ → Prop) : Prop :=
  ∀ s t u, step s t → step s u → t = u ∨ ∃ v, step t v ∧ step u v

theorem next (h : Ends step P s) (hst : step s t) : Ends step P t := by
  cases h with
  | intro _ _ hnext => exact hnext t hst

theorem run (h : Ends step P s) (hst : Relation.ReflTransGen step s t) : Ends step P t := by
  induction hst with
  | refl => exact h
  | tail _ hstep ih => exact ih.next hstep

theorem final (h : Ends step P s) (hs : ∀ t, ¬step s t) : P s := by
  cases h with
  | intro _ hend _ => exact hend hs

/-- One step after which every run ends is enough for all of them to end. -/
theorem of_step (hd : Diamond step) (h : Ends step P t) (hst : step s t) : Ends step P s := by
  induction h generalizing s with
  | intro t hend hnext ih =>
    refine .intro s (fun hs => absurd hst (hs t)) fun u hsu => ?_
    rcases hd s t u hst hsu with rfl | ⟨v,htv,huv⟩
    · exact .intro t hend hnext
    · exact ih v htv huv

/-- There is a run to the end. -/
theorem exists_run (h : Ends step P s) : ∃ t, Relation.ReflTransGen step s t ∧ P t := by
  induction h with
  | intro s hend hnext ih =>
    by_cases hs : ∃ t, step s t
    · obtain ⟨t,ht⟩ := hs
      obtain ⟨u,hu,hP⟩ := ih t ht
      exact ⟨u, .head ht hu, hP⟩
    · exact ⟨s, .refl, hend fun t ht => hs ⟨t,ht⟩⟩

/-- One run that ends well is enough for all of them to. -/
theorem of_run (hd : Diamond step) (hst : Relation.ReflTransGen step s t) (ht : ∀ u, ¬step t u)
    (hP : P t) : Ends step P s := by
  induction hst using Relation.ReflTransGen.head_induction_on with
  | refl => exact .intro t (fun _ => hP) fun u hu => absurd hu (ht u)
  | head hstep _ ih => exact of_step hd ih hstep

end Ends

/-- A program that sends and receives values of `β`. -/
inductive Proc (β α : Type) where
  | done (a : α)
  | fail
  | put (b : β) (k : Proc β α)
  | get (k : β → Proc β α)

namespace Proc

def bind : Proc β α → (α → Proc β γ) → Proc β γ
  | done a, f => f a
  | fail, _ => fail
  | put b k, f => put b (k.bind f)
  | get k, f => get fun b => (k b).bind f

instance : Monad (Proc β) where
  pure := done
  bind := bind

@[simp] theorem done_bind (a : α) (f : α → Proc β γ) : ((done a : Proc β α) >>= f) = f a := rfl

def recv : Proc β β := get done

def send (b : β) : Proc β Unit := put b (done ())

/-- Receive `n` values. -/
def recvN : ℕ → Proc β (List β)
  | 0 => pure []
  | n+1 => do
    let b ← recv
    let bs ← recvN n
    pure (b::bs)

def sendAll : List β → Proc β Unit
  | [] => pure ()
  | b::bs => do
    send b
    sendAll bs

/-- `p` receives the values `i`, sends the values `o` and goes on as `q`. -/
inductive Runs : Proc β α → List β → List β → Proc β α → Prop
  | refl (p : Proc β α) : Runs p [] [] p
  | put {b : β} {k p : Proc β α} {i o : List β} : Runs k i o p → Runs (put b k) i (b::o) p
  | get {b : β} {k : β → Proc β α} {p : Proc β α} {i o : List β} :
    Runs (k b) i o p → Runs (get k) (b::i) o p

namespace Runs
variable {p q r : Proc β α} {i i' o o' bs : List β} {a : α} {f : α → Proc β γ} {s : Proc β γ}

theorem trans (h : Runs p i o q) (h' : Runs q i' o' r) : Runs p (i ++ i') (o ++ o') r := by
  induction h with
  | refl => exact h'
  | put _ ih => exact .put (ih h')
  | get _ ih => exact .get (ih h')

theorem bind (h : Runs p i o q) (f : α → Proc β γ) : Runs (p >>= f) i o (q >>= f) := by
  induction h with
  | refl => exact .refl _
  | put _ ih => exact .put ih
  | get _ ih => exact .get ih

/-- A program that ends is followed by the next one. -/
theorem seq (h : Runs p i o (done a)) (h' : Runs (f a) i' o' s) :
    Runs (p >>= f) (i ++ i') (o ++ o') s :=
  (h.bind f).trans h'

/-- What follows when the first program only receives. -/
theorem seq_recv (h : Runs p i [] (done a)) (h' : Runs (f a) i' o' s) :
    Runs (p >>= f) (i ++ i') o' s :=
  h.seq h'

/-- What follows when the first program only receives and the second one only sends. -/
theorem answer (h : Runs p i [] (done a)) (h' : Runs (f a) [] o s) : Runs (p >>= f) i o s := by
  have hseq := h.seq h'
  rwa [List.append_nil] at hseq

/-- What follows when the first program only sends. -/
theorem seq_send (h : Runs p [] o (done a)) (h' : Runs (f a) i' o' s) :
    Runs (p >>= f) i' (o ++ o') s :=
  h.seq h'

theorem recv (b : β) : Runs Proc.recv [b] [] (done b) := .get (.refl _)

theorem send (b : β) : Runs (Proc.send b) [] [b] (done ()) := .put (.refl _)

theorem recvN (bs : List β) : Runs (Proc.recvN bs.length) bs [] (done bs) := by
  induction bs with
  | nil => exact .refl _
  | cons b bs ih =>
    exact (Runs.recv b).seq_recv (ih.bind _)

theorem sendAll (bs : List β) : Runs (Proc.sendAll bs) [] bs (done ()) := by
  induction bs with
  | nil => exact .refl _
  | cons b bs ih => exact (Runs.send b).seq_send ih

theorem done_inv {a' : α} (h : Runs (done a : Proc β α) i o (done a')) :
    a = a' ∧ i = [] ∧ o = [] := by
  cases h with
  | refl => exact ⟨rfl,rfl,rfl⟩

theorem get_inv {k : β → Proc β α} (h : Runs (Proc.get k) i o (done a)) :
    ∃ b i', i = b::i' ∧ Runs (k b) i' o (done a) := by
  cases h with
  | get h => exact ⟨_, _, rfl, h⟩

theorem put_inv {b : β} {k : Proc β α} (h : Runs (Proc.put b k) i o (done a)) :
    ∃ o', o = b::o' ∧ Runs k i o' (done a) := by
  cases h with
  | put h => exact ⟨_, rfl, h⟩

/-- A run to the end goes through the end of the first program. -/
theorem bind_inv {c : γ} (h : Runs (p >>= f) i o (done c)) :
    ∃ a i₁ o₁ i₂ o₂, Runs p i₁ o₁ (done a) ∧ Runs (f a) i₂ o₂ (done c) ∧
      i = i₁ ++ i₂ ∧ o = o₁ ++ o₂ := by
  induction p generalizing i o with
  | done a => exact ⟨a, [], [], i, o, .refl _, h, rfl, rfl⟩
  | fail => cases h
  | put b k ih =>
    obtain ⟨o',rfl,hk⟩ := put_inv h
    obtain ⟨a,i₁,o₁,i₂,o₂,h₁,h₂,rfl,rfl⟩ := ih hk
    exact ⟨a, i₁, b::o₁, i₂, o₂, .put h₁, h₂, rfl, rfl⟩
  | get k ih =>
    obtain ⟨b,i',rfl,hk⟩ := get_inv h
    obtain ⟨a,i₁,o₁,i₂,o₂,h₁,h₂,rfl,rfl⟩ := ih b hk
    exact ⟨a, b::i₁, o₁, i₂, o₂, .get h₁, h₂, rfl, rfl⟩

theorem sendAll_inv {u : Unit} (h : Runs (Proc.sendAll bs) i o (done u)) : i = [] ∧ o = bs := by
  induction bs generalizing o with
  | nil => exact (done_inv h).2
  | cons b bs ih =>
    obtain ⟨o',rfl,hrest⟩ := put_inv h
    obtain ⟨rfl,rfl⟩ := ih hrest
    exact ⟨rfl,rfl⟩

end Runs

/-- The program has failed or cannot go on without another value. -/
inductive Starved : Proc β α → Prop
  | fail : Starved fail
  | get (k : β → Proc β α) : Starved (get k)

theorem Starved.bind {p : Proc β α} (h : Starved p) (f : α → Proc β γ) : Starved (p >>= f) := by
  cases h with
  | fail => exact .fail
  | get k => exact .get _

theorem Starved.ne_done {p : Proc β α} (h : Starved p) (a : α) : p ≠ done a := by
  rintro rfl
  cases h

/-- The program has nothing to send. -/
def Idle (p : Proc β α) : Prop := ∀ b k, p ≠ put b k

theorem idle_done (a : α) : (done a : Proc β α).Idle := nofun

theorem Starved.idle {p : Proc β α} (h : Starved p) : p.Idle := by
  rintro b k rfl
  cases h

end Proc

/-- Two programs and the values on their way from each to the other. -/
structure Link (β α α' : Type) where
  left : Proc β α
  right : Proc β α'
  toRight : List β
  toLeft : List β

namespace Link

/-- One of the two programs sends or receives. -/
inductive Step : Link β α α' → Link β α α' → Prop
  | leftPut (b k q xs ys) : Step ⟨.put b k,q,xs,ys⟩ ⟨k,q,xs++[b],ys⟩
  | leftGet (b k q xs ys) : Step ⟨.get k,q,xs,b::ys⟩ ⟨k b,q,xs,ys⟩
  | rightPut (b k p xs ys) : Step ⟨p,.put b k,xs,ys⟩ ⟨p,k,xs,ys++[b]⟩
  | rightGet (b k p xs ys) : Step ⟨p,.get k,b::xs,ys⟩ ⟨p,k b,xs,ys⟩

/-- Both programs start on an empty link. -/
def start (p : Proc β α) (q : Proc β α') : Link β α α' := ⟨p,q,[],[]⟩

abbrev Reaches : Link β α α' → Link β α α' → Prop := Relation.ReflTransGen Step

theorem step_diamond : Ends.Diamond (Step : Link β α α' → Link β α α' → Prop) := by
  intro s t u ht hu
  cases ht with
  | leftPut b k q xs ys =>
    cases hu with
    | leftPut => exact .inl rfl
    | rightPut => exact .inr ⟨_,.rightPut ..,.leftPut ..⟩
    | rightGet => exact .inr ⟨_,.rightGet ..,.leftPut ..⟩
  | leftGet b k q xs ys =>
    cases hu with
    | leftGet => exact .inl rfl
    | rightPut => exact .inr ⟨_,.rightPut ..,.leftGet ..⟩
    | rightGet => exact .inr ⟨_,.rightGet ..,.leftGet ..⟩
  | rightPut b k p xs ys =>
    cases hu with
    | leftPut => exact .inr ⟨_,.leftPut ..,.rightPut ..⟩
    | leftGet => exact .inr ⟨_,.leftGet ..,.rightPut ..⟩
    | rightPut => exact .inl rfl
  | rightGet b k p xs ys =>
    cases hu with
    | leftPut => exact .inr ⟨_,.leftPut ..,.rightGet ..⟩
    | leftGet => exact .inr ⟨_,.leftGet ..,.rightGet ..⟩
    | rightGet => exact .inl rfl

variable {p p' : Proc β α} {q q' : Proc β α'} {xs ys i o : List β}

/-- A run of the left program alone is a run of the link. -/
theorem reaches_left (h : p.Runs i o p') (q : Proc β α') (xs ys : List β) :
    Reaches ⟨p,q,xs,i++ys⟩ ⟨p',q,xs++o,ys⟩ := by
  induction h generalizing xs with
  | refl => rw [List.append_nil]; exact .refl
  | put _ ih =>
    rw [List.append_cons]
    exact .head (.leftPut ..) (ih _)
  | get _ ih => exact .head (.leftGet ..) (ih _)

theorem reaches_right (h : q.Runs i o q') (p : Proc β α) (xs ys : List β) :
    Reaches ⟨p,q,i++xs,ys⟩ ⟨p,q',xs,ys++o⟩ := by
  induction h generalizing ys with
  | refl => rw [List.append_nil]; exact .refl
  | put _ ih =>
    rw [List.append_cons]
    exact .head (.rightPut ..) (ih _)
  | get _ ih => exact .head (.rightGet ..) (ih _)

/-- What a run of the link is for each program alone: nothing is lost between the two. -/
theorem runs_of_reaches {s t : Link β α α'} (h : Reaches s t) :
    ∃ i₁ o₁ i₂ o₂, s.left.Runs i₁ o₁ t.left ∧ s.right.Runs i₂ o₂ t.right ∧
      s.toRight ++ o₁ = i₂ ++ t.toRight ∧ s.toLeft ++ o₂ = i₁ ++ t.toLeft := by
  induction h with
  | refl => exact ⟨[], [], [], [], .refl _, .refl _, by simp, by simp⟩
  | tail _ hstep ih =>
    obtain ⟨i₁,o₁,i₂,o₂,h₁,h₂,hright,hleft⟩ := ih
    cases hstep with
    | leftPut b k q xs ys =>
      exact ⟨i₁ ++ [], o₁ ++ [b], i₂, o₂, h₁.trans (.put (.refl _)), h₂,
        by rw [← List.append_assoc, hright, List.append_assoc], by simpa using hleft⟩
    | leftGet b k q xs ys =>
      exact ⟨i₁ ++ [b], o₁ ++ [], i₂, o₂, h₁.trans (.get (.refl _)), h₂, by simpa using hright,
        by simpa using hleft⟩
    | rightPut b k p xs ys =>
      exact ⟨i₁, o₁, i₂ ++ [], o₂ ++ [b], h₁, h₂.trans (.put (.refl _)), by simpa using hright,
        by rw [← List.append_assoc, hleft, List.append_assoc]⟩
    | rightGet b k p xs ys =>
      exact ⟨i₁, o₁, i₂ ++ [b], o₂ ++ [], h₁, h₂.trans (.get (.refl _)), by simpa using hright,
        by simpa using hleft⟩

/-- The left program reads all that is on its way, and answers on an empty link. -/
theorem answers_left (h : p.Runs i o p') (q : Proc β α') : Reaches ⟨p,q,[],i⟩ ⟨p',q,o,[]⟩ := by
  have hrun := reaches_left h q [] []
  rwa [List.append_nil] at hrun

theorem answers_right (h : q.Runs i o q') (p : Proc β α) : Reaches ⟨p,q,i,[]⟩ ⟨p,q',[],o⟩ := by
  have hrun := reaches_right h p [] []
  rwa [List.append_nil] at hrun

/-- Nothing happens any more when both programs are idle and nothing is on its way. -/
theorem final_of_idle (hp : p.Idle) (hq : q.Idle) (t : Link β α α') : ¬Step ⟨p,q,[],[]⟩ t := by
  intro h
  cases h with
  | leftPut => exact hp _ _ rfl
  | rightPut => exact hq _ _ rfl

/-- Nothing happens any more when the right program has failed and the left one gets no answer. -/
theorem final_of_fail (hp : p.Idle) (t : Link β α α') : ¬Step ⟨p,.fail,xs,[]⟩ t := by
  intro h
  cases h with
  | leftPut => exact hp _ _ rfl

end Link

end DistributedPis.Library
