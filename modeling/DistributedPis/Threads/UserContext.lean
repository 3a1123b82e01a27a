import DistributedPis.Threads.Switching

/-! Coming back to a user thread. Its save area keeps all 17 words from its suspension to its next
turn, and `rpi_cswitch2` restores all of them but the middle of the status register: `msr spsr`
only writes the flags and the control byte. -/
namespace DistributedPis
open Library

lemma cpsr_middle {s : Arm} {psr spsr : Word} (h : s.flags = msrFlags psr spsr) :
    s.cpsr.extractLsb' 8 16 = spsr.extractLsb' 8 16 := by
  rw [Arm.cpsr, h, msrFlags]
  ext i hi
  simp
  grind

lemma cpsr_of_middle {s : Arm} {psr spsr : Word} (h : s.flags = msrFlags psr spsr)
    (hctl : s.ctl = psr.extractLsb' 0 8)
    (hmiddle : spsr.extractLsb' 8 16 = psr.extractLsb' 8 16) : s.cpsr = psr := by
  rw [Arm.cpsr, h, msrFlags, hctl, hmiddle]
  ext i hi
  simp
  grind

/-- Resuming a save area brings back its thread, if the middle of the status is the same. -/
theorem AreaOf.goesOn_iff {m : Word → Word} {b pc spsr : Word} {a r : Arm}
    (h : AreaOf m b a pc a.cpsr) (hres : Resumes m b r) (huser : ResumesUser m b spsr r) :
    Ctx.GoesOn a pc r ↔ spsr.extractLsb' 8 16 = a.cpsr.extractLsb' 8 16 := by
  have hflags := huser.flags
  have hctl := hres.ctl
  rw [h.psr] at hflags hctl
  constructor
  · intro hgoes
    rw [← cpsr_middle hflags, hgoes.cpsr]
  · exact fun hmiddle =>
      { reg := fun i => (hres.reg i).trans (h.reg i)
        sp := huser.sp.trans h.sp
        lr := huser.lr.trans h.lr
        cpsr := cpsr_of_middle hflags hctl hmiddle
        pc := hres.pc.trans h.pc }

namespace Ctx
variable {n : ℕ} {L : Layout n} {s s' : Ctx n} {t : Fin n}

/-- Only a thread that was forked runs. -/
lemma forked_step (h : ∀ t, s.cur = some t → s.forked t = true) {e : CtxEvent n}
    (hstep : step L s e = some s') : ∀ t, s'.cur = some t → s'.forked t = true := by
  intro t ht
  cases step_cases hstep with
  | run c => exact h t ht
  | fork u f hnew =>
    by_cases htu : t = u
    · subst htu
      exact Function.update_self ..
    · exact (Function.update_of_ne htu ..).trans (h t ht)
  | dispatch u ret hidle hforked => exact Option.some.inj ht ▸ hforked
  | timer c f hon hf => cases ht
  | swi c f hmode hf => cases ht

/-- The area of a thread that waits for its turn, before and after. -/
structure Waits (L : Layout n) (t : Fin n) (s s' : Ctx n) : Prop where
  forked : s'.forked t = true
  idle : s'.cur ≠ some t
  area : ∀ k < 17, s'.arm.mem (word (L.base (some t)) k) = s.arm.mem (word (L.base (some t)) k)

/-- No step writes the area of a thread that waits. -/
theorem waits_step (h : Inv L s) {e : CtxEvent n} (hstep : step L s e = some s')
    (hforked : s.forked t = true) (hidle : s.cur ≠ some t) (hother : ∀ ret, e ≠ .dispatch t ret) :
    Waits L t s s' := by
  by_cases hback : s.cur ≠ none ∧ s'.cur = none
  · obtain ⟨u,hu⟩ := Option.ne_none_iff_exists'.mp hback.1
    obtain ⟨⟨m,_,hb⟩,hs'⟩ := back_returned h hstep hu hback.2
    have htu : some t ≠ some u := hu ▸ hidle.symm
    rw [hs']
    refine ⟨hforked, by simp, fun k hk => ?_⟩
    rw [hb.returned.kept _ htu k hk, hb.memory _ k hk]
  · cases step_cases hstep with
    | run c => exact ⟨hforked, hidle, fun k hk => compiled_mem L c s.arm (some t) hk⟩
    | fork u f hnew =>
      have htu : t ≠ u := fun hc => by
        rw [← hc, hforked] at hnew
        cases hnew
      refine ⟨(Function.update_of_ne htu ..).trans hforked, hidle, fun k hk => ?_⟩
      exact initArea_off fun j hj => L.base_apart _ _ (by simpa using htu) k hk j hj
    | dispatch u ret hnone hu =>
      have htu : u ≠ t := fun hc => hother ret (hc ▸ rfl)
      obtain ⟨r,hr,_,_,_,hkept⟩ := dispatch_spec (L := L) (h.sched hnone).1 u ret
      rw [hr]
      exact ⟨hforked, by simpa using htu, hkept t⟩
    | timer c f hon hf => exact absurd ⟨h.timer_user hon,rfl⟩ hback
    | swi c f hmode hf => exact absurd ⟨h.swi_user hmode,rfl⟩ hback

/-- Nor does a run in which it is not its turn. -/
theorem waits_run {es : List (CtxEvent n)} (h : Inv L s) (hforked : s.forked t = true)
    (hidle : s.cur ≠ some t) (hother : ∀ e ∈ es, ∀ ret, e ≠ .dispatch t ret)
    (hrun : es.foldlM (step L) s = some s') : Inv L s' ∧ Waits L t s s' := by
  induction es generalizing s with
  | nil =>
    cases hrun
    exact ⟨h, hforked, hidle, fun k hk => rfl⟩
  | cons e es ih =>
    rw [List.foldlM_cons] at hrun
    obtain ⟨u,hu,hrun⟩ := Option.bind_eq_some_iff.mp hrun
    have hwaits := waits_step h hu hforked hidle (hother e (List.mem_cons_self ..))
    obtain ⟨hinv,hrest⟩ := ih (step_inv h hu) hwaits.forked hwaits.idle
      (fun e he => hother e (List.mem_cons_of_mem _ he)) hrun
    exact ⟨hinv, hrest.forked, hrest.idle, fun k hk => (hrest.area k hk).trans (hwaits.area k hk)⟩

/-- What runs before a suspension. -/
lemma running_spec {a : Arm} {f : ForkArgs} {es : List (CtxEvent n)} (hmode : a.mode = .svc)
    (hoff : a.irqOff = true) (hrun : es.foldlM (step L) (start L f a) = some s)
    (hcur : s.cur = some t) : Inv L s ∧ s.forked t = true := by
  refine ⟨foldlM_invariant (P := Inv L) (fun _ _ _ h => step_inv h) (start_inv f hmode hoff) hrun, ?_⟩
  exact foldlM_invariant (P := fun s : Ctx n => ∀ t, s.cur = some t → s.forked t = true)
    (fun _ _ _ h => forked_step h) (fun t ht => absurd ht (by simp [start])) hrun t hcur

/-- A step that suspends a thread brings the scheduler back. -/
lemma suspends_idle {e : CtxEvent n} (he : Suspends s e) (hstep : step L s e = some s') :
    s'.cur = none ∧ s'.forked = s.forked := by
  cases step_cases hstep with
  | run c => exact absurd he id
  | fork u f hnew => exact absurd he id
  | dispatch u ret hidle hforked => exact absurd he id
  | timer c f hon hf => exact ⟨rfl,rfl⟩
  | swi c f hmode hf => exact ⟨rfl,rfl⟩

/-- A thread that is suspended in an orderly state, and its next turn. -/
theorem nextTurn_iff {es : List (CtxEvent n)} {s₁ s₂ s₃ : Ctx n} {e : CtxEvent n} {ret : Word}
    (h : Inv L s) (hforked : s.forked t = true) (hcur : s.cur = some t) (he : Suspends s e)
    (hstep : step L s e = some s₁) (hrun : es.foldlM (step L) s₁ = some s₂)
    (hother : ∀ e ∈ es, ∀ ret, e ≠ .dispatch t ret)
    (hnext : step L s₂ (.dispatch t ret) = some s₃) :
    GoesOn s.arm (resumeAt s e) s₃.arm ↔
      (s₂.arm.reg (.spsr .irq)).extractLsb' 8 16 = s.arm.cpsr.extractLsb' 8 16 := by
  obtain ⟨hidle,hforks⟩ := suspends_idle he hstep
  obtain ⟨⟨_,_,hback⟩,_⟩ := back_returned h hstep hcur hidle
  obtain ⟨hinv₂,hwaits⟩ := waits_run (step_inv h hstep) (hforks ▸ hforked) (by simp [hidle])
    hother hrun
  cases step_cases hnext with
  | dispatch t ret hidle₂ hforked₂ =>
    obtain ⟨r,hr,hres,huser,_,hkept⟩ := dispatch_spec (L := L) (hinv₂.sched hidle₂).1 t ret
    have harea' : AreaOf r.mem (L.base (some t)) s.arm (resumeAt s e) s.arm.cpsr :=
      (hback.area he).congr fun k hk => (hkept t k hk).trans (hwaits.area k hk)
    rw [hr]
    exact harea'.goesOn_iff hres huser

/-- In every run, a thread that is suspended and gets its next turn later, with anything in
between, finds all of its registers exactly if the middle of the status register was left as it
had it. -/
theorem user_context_iff {a : Arm} {f : ForkArgs} {es es' : List (CtxEvent n)} {s₁ s₂ s₃ : Ctx n}
    {e : CtxEvent n} {ret : Word} (hmode : a.mode = .svc) (hoff : a.irqOff = true)
    (hrun : es.foldlM (step L) (start L f a) = some s) (hcur : s.cur = some t)
    (he : Suspends s e) (hstep : step L s e = some s₁)
    (hrun' : es'.foldlM (step L) s₁ = some s₂) (hother : ∀ e ∈ es', ∀ ret, e ≠ .dispatch t ret)
    (hnext : step L s₂ (.dispatch t ret) = some s₃) :
    GoesOn s.arm (resumeAt s e) s₃.arm ↔
      (s₂.arm.reg (.spsr .irq)).extractLsb' 8 16 = s.arm.cpsr.extractLsb' 8 16 := by
  obtain ⟨h,hforked⟩ := running_spec hmode hoff hrun hcur
  exact nextTurn_iff h hforked hcur he hstep hrun' hother hnext

/-- The thread of `oneThread`. -/
def onlyThread : Fin 1 := Fin.last 0

/-- It is forked and runs. -/
def firstTurn (c : CCode) : List (CtxEvent 1) :=
  [.fork onlyThread ⟨0x104000, 0, 0x8600, 0x8800⟩, .dispatch onlyThread 0x8480, .run c]

/-- It is suspended and gets its next turn at once: its r0 and its status before, and the middle of
the status register that is left for it. -/
def nextTurn (c : CCode) (e : CtxEvent 1) : Option (Option (Fin 1) × Word × Word × BitVec 16) :=
  ((firstTurn c).foldlM (step oneThread) (start oneThread schedArgs mainProgram)).bind fun s =>
    (step oneThread s e).bind fun s₁ => (step oneThread s₁ (.dispatch onlyThread 0x8480)).map fun _ =>
      (s.cur, s.arm.reg (.gpr 0), s.arm.cpsr, (s₁.arm.reg (.spsr .irq)).extractLsb' 8 16)

lemma nextTurn_eq {c : CCode} {e : CtxEvent 1} {u : Option (Fin 1)} {r0 psr : Word}
    {middle : BitVec 16} (h : nextTurn c e = some (u,r0,psr,middle)) : ∃ s s₁ s₃,
      (firstTurn c).foldlM (step oneThread) (start oneThread schedArgs mainProgram) = some s ∧
      step oneThread s e = some s₁ ∧ step oneThread s₁ (.dispatch onlyThread 0x8480) = some s₃ ∧
      s.cur = u ∧ s.arm.reg (.gpr 0) = r0 ∧ s.arm.cpsr = psr ∧
      (s₁.arm.reg (.spsr .irq)).extractLsb' 8 16 = middle := by
  obtain ⟨s,hs,h⟩ := Option.bind_eq_some_iff.mp h
  obtain ⟨s₁,hs₁,h⟩ := Option.bind_eq_some_iff.mp h
  obtain ⟨s₃,hs₃,h⟩ := Option.map_eq_some_iff.mp h
  simp only [Prod.mk.injEq] at h
  exact ⟨s, s₁, s₃, hs, hs₁, hs₃, h⟩

theorem user_context_iff_timer : ∃ s s₁ s₃, step oneThread s (.timer (leaves 0)) = some s₁ ∧
    step oneThread s₁ (.dispatch onlyThread 0x8480) = some s₃ ∧ GoesOn s.arm s.arm.pc s₃.arm := by
  have hturn : nextTurn (leaves 7) (.timer (leaves 0)) = some (some onlyThread, 7, 0x10, 0) := by
    decide +kernel
  obtain ⟨s,s₁,s₃,hs,hs₁,hs₃,hcur,_,hpsr,hmiddle⟩ := nextTurn_eq hturn
  have hsusp : Suspends s (.timer (leaves 0)) := trivial
  have hnil : ([] : List (CtxEvent 1)).foldlM (step oneThread) s₁ = some s₁ := rfl
  refine ⟨s, s₁, s₃, hs₁, hs₃, (user_context_iff (by decide) (by decide) hs hcur hsusp hs₁ hnil
    (List.forall_mem_nil _) hs₃).mpr ?_⟩
  rw [hmiddle, hpsr]
  decide

/-- The thread has set its four GE bits. -/
def setsGE : CCode := { leaves 0 with flags := 0xf00 }

/-- A thread that yields loses them, also when no other thread runs. -/
theorem yield_loses_GE : ∃ s s₁ s₃,
    (firstTurn setsGE).foldlM (step oneThread) (start oneThread schedArgs mainProgram) = some s ∧
      s.cur = some onlyThread ∧ Suspends s (.swi (leaves 0)) ∧
      step oneThread s (.swi (leaves 0)) = some s₁ ∧
      step oneThread s₁ (.dispatch onlyThread 0x8480) = some s₃ ∧
      ¬GoesOn s.arm (resumeAt s (.swi (leaves 0))) s₃.arm := by
  have hturn : nextTurn setsGE (.swi (leaves 0)) = some (some onlyThread, 0, 0xf0010, 0) := by
    decide +kernel
  obtain ⟨s,s₁,s₃,hs,hs₁,hs₃,hcur,hr0,hpsr,hmiddle⟩ := nextTurn_eq hturn
  have hsusp : Suspends s (.swi (leaves 0)) := by
    rw [Suspends, hr0]
    decide
  have hnil : ([] : List (CtxEvent 1)).foldlM (step oneThread) s₁ = some s₁ := rfl
  obtain ⟨hinv,hforked⟩ := running_spec (by decide) (by decide) hs hcur
  refine ⟨s, s₁, s₃, hs, hcur, hsusp, hs₁, hs₃, ?_⟩
  rw [nextTurn_iff hinv hforked hcur hsusp hs₁ hnil (List.forall_mem_nil _) hs₃, hmiddle, hpsr]
  decide

end Ctx
end DistributedPis
