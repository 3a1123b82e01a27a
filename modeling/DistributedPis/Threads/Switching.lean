import DistributedPis.Threads.Routines
import DistributedPis.Library.Run

/-! Coming back to the scheduler: the save area holds the registers of its last call, and every
handler restores them from there. Only the supervisor stack pointer depends on the way back:
`rpi_enter` loads it, `rpi_cswitch2` loads the user one instead. -/
namespace DistributedPis
open Library

lemma mode_of_ctl {s : Arm} {w : Word} (h : s.ctl = w.extractLsb' 0 8) :
    s.mode = .ofBits (w.extractLsb' 0 5) := by
  rw [Arm.mode, h, BitVec.extractLsb'_extractLsb'_of_le (by decide)]

lemma cpsr_ctl (s : Arm) : s.cpsr.extractLsb' 0 8 = s.ctl := BitVec.extractLsb'_append_eq_right

lemma cpsr_bits (s : Arm) : s.cpsr.extractLsb' 0 5 = s.ctl.extractLsb' 0 5 := by
  rw [← cpsr_ctl, BitVec.extractLsb'_extractLsb'_of_le (by decide)]

lemma bits_of_usr {b : BitVec 5} (h : Mode.ofBits b = .usr) : b = Mode.usr.bits := by
  unfold Mode.ofBits at h
  split at h
  · assumption
  · split at h <;> try split at h
    all_goals cases h

lemma userPsr_bits (w : Word) : (userPsr w).extractLsb' 0 5 = Mode.usr.bits := by
  have hmask : (~~~0b11111#32).extractLsb' 0 5 = 0#5 := by decide
  have huser : (0b10000#32).extractLsb' 0 5 = Mode.usr.bits := by decide
  rw [userPsr, BitVec.extractLsb'_or, BitVec.extractLsb'_and, hmask, huser, BitVec.and_zero,
    BitVec.zero_or]

section Area
variable {b x psr : Word} {f : ForkArgs} {m : Word → Word}

lemma initArea_off (hx : ∀ k < 17, x ≠ word b k) : initArea b f psr m x = m x := by
  have hoff : ∀ (j : ℕ) (m : Word → Word) (ws : List Word), j + ws.length ≤ 17 →
      storeWords m (word b j) ws x = m x := by
    intro j m ws hle
    refine storeWords_off fun k hk => ?_
    rw [word_word]
    exact hx _ (by omega)
  have hfirst := hoff 0 m [f.sp] (by simp)
  rw [word_zero] at hfirst
  rw [initArea, hoff 16 _ _ (by simp), hoff 8 _ _ (by simp), hoff 2 _ _ (by simp), hfirst]

lemma initArea_psr : initArea b f psr m (word b 2) = psr := by
  have hoff : ∀ (j : ℕ) (m : Word → Word) (ws : List Word), 2 < j → j + ws.length ≤ 17 →
      storeWords m (word b j) ws (word b 2) = m (word b 2) := by
    intro j m ws hj hle
    refine storeWords_off fun k hk hc => ?_
    rw [word_word] at hc
    exact absurd (word_inj (by omega) (by omega) hc) (by omega)
  rw [initArea, hoff 16 _ _ (by omega) (by simp), hoff 8 _ _ (by omega) (by simp)]
  exact storeWords_head (by simp)

end Area

namespace SavedAt
variable {m m' : Word → Word} {b : Word} {a t : Arm}

theorem congr (h : SavedAt m b a) (hm : ∀ k < 17, m' (word b k) = m (word b k)) :
    SavedAt m' b a where
  reg i hi := by rw [hm _ (by omega), h.reg i hi]
  sp := by have := hm 0 (by decide); rw [word_zero] at this; rw [this, h.sp]
  pc := by rw [hm _ (by decide), h.pc]
  cpsr := by rw [hm _ (by decide), h.cpsr]

/-- Resuming the save area brings back all but the supervisor stack pointer. -/
theorem preserved_iff (h : SavedAt m b a) (ht : Resumes m b t) :
    Ctx.Preserved a t ↔ t.reg (.sp .svc) = a.reg (.sp .svc) := by
  refine ⟨fun hp => hp.sp, fun hsp => ⟨fun i hi => ?_, hsp, ?_, ?_⟩⟩
  · rw [ht.reg, h.reg i hi]
  · rw [ht.pc, h.pc]
  · rw [ht.ctl, h.cpsr, cpsr_ctl]

end SavedAt

theorem AreaOf.congr {m m' : Word → Word} {b b' pc psr : Word} {a : Arm} (h : AreaOf m b a pc psr)
    (hm : ∀ k < 17, m' (word b' k) = m (word b k)) : AreaOf m' b' a pc psr where
  sp := by have := hm 0 (by decide); rw [word_zero, word_zero] at this; rw [this, h.sp]
  lr := by rw [hm 1 (by decide), h.lr]
  psr := by rw [hm 2 (by decide), h.psr]
  reg i := by rw [hm _ (by omega), h.reg i]
  pc := by rw [hm 16 (by decide), h.pc]

section Compiled
variable {n : ℕ} (L : Layout n) (c : CCode) (s : Arm)

lemma Layout.saved_word (x : Option (Fin n)) {k : ℕ} (hk : k < 17) : L.Saved (word (L.base x) k) :=
  ⟨x,k,hk,rfl⟩

@[simp] lemma compiled_ctl : (compiled L c s).ctl = s.ctl := rfl

@[simp] lemma compiled_mode : (compiled L c s).mode = s.mode := rfl

lemma compiled_mem (x : Option (Fin n)) {k : ℕ} (hk : k < 17) :
    (compiled L c s).mem (word (L.base x) k) = s.mem (word (L.base x) k) :=
  if_pos (L.saved_word x hk)

end Compiled

namespace Ctx
variable {n : ℕ} {L : Layout n} {s s' : Ctx n}

/-- Areas of threads resume in user mode; while one runs, the scheduler's holds its call. -/
structure Inv (L : Layout n) (s : Ctx n) : Prop where
  saved : ∀ t, s.forked t = true →
    (s.arm.mem (word (L.base (some t)) 2)).extractLsb' 0 5 = Mode.usr.bits
  sched : s.cur = none → s.arm.mode = .svc ∧ s.arm.irqOff = true
  user : s.cur ≠ none → s.arm.mode = .usr ∧ SavedAt s.arm.mem L.sched s.call ∧
    s.call.mode = .svc ∧ s.call.irqOff = true

theorem enter_spec {a : Arm} (hpriv : a.mode ≠ .usr) :
    Resumes a.mem L.sched (enter L a) ∧ (enter L a).reg (.sp .svc) = a.mem L.sched := by
  obtain ⟨t,ht,hres,hsp⟩ := rpiEnter_spec (a := a.put (.gpr 0) L.sched) hpriv
  rw [enter, ht]
  rw [Arm.put_reg_self] at hres hsp
  exact ⟨hres,hsp⟩

lemma start_inv {a : Arm} (f : ForkArgs) (hmode : a.mode = .svc) (hoff : a.irqOff = true) :
    Inv L (start L f a) where
  saved := by simp [start]
  sched _ := by
    have hpriv : Arm.mode { a with mem := initArea L.sched f a.cpsr a.mem } ≠ .usr := by
      rw [show Arm.mode { a with mem := initArea L.sched f a.cpsr a.mem } = a.mode from rfl, hmode]
      decide
    obtain ⟨hres,_⟩ := enter_spec (L := L) hpriv
    have hctl := hres.ctl
    simp only [initArea_psr, cpsr_ctl] at hctl
    exact ⟨by rw [start, Arm.mode, hctl]; exact hmode, by rw [start, Arm.irqOff, hctl]; exact hoff⟩
  user h := absurd rfl h

lemma run_inv (h : Inv L s) (c : CCode) : Inv L { s with arm := compiled L c s.arm } where
  saved t ht := by
    rw [compiled_mem L c s.arm (some t) (by decide)]
    exact h.saved t ht
  sched := h.sched
  user hcur := by
    obtain ⟨hmode,hsaved,hcall⟩ := h.user hcur
    exact ⟨hmode, hsaved.congr fun k hk => compiled_mem L c s.arm none hk, hcall⟩

lemma fork_inv (h : Inv L s) (t : Fin n) (f : ForkArgs) : Inv L { s with
    arm.mem := initArea (L.base t) f (userPsr s.arm.cpsr) s.arm.mem
    forked := Function.update s.forked t true } where
  saved u hu := by
    dsimp only at hu ⊢
    by_cases htu : u = t
    · subst htu
      rw [initArea_psr, userPsr_bits]
    · have hne : some u ≠ some t := by simpa using htu
      rw [initArea_off fun k hk => L.base_apart _ _ hne 2 (by decide) k hk]
      refine h.saved u ?_
      simpa [Function.update_of_ne htu] using hu
  sched := h.sched
  user hcur := by
    obtain ⟨hmode,hsaved,hcall⟩ := h.user hcur
    refine ⟨hmode, hsaved.congr fun k hk => ?_, hcall⟩
    exact initArea_off fun j hj => L.base_apart none (some t) (by simp) k hk j hj

/-- The call in `threadSched` resumes the area of the thread and writes the scheduler's. -/
lemma dispatch_spec {a : Arm} (hmode : a.mode = .svc) (t : Fin n) (ret : Word) :
    ∃ r, Instr.run rpiCswitch2 (callSwitch L t ret a) = (r,none) ∧
      Resumes r.mem (L.base (some t)) r ∧
      ResumesUser r.mem (L.base (some t)) (a.reg (.spsr .irq)) r ∧
      SavedAt r.mem L.sched (callSwitch L t ret a) ∧
      ∀ u, ∀ k < 17, r.mem (word (L.base (some u)) k) = a.mem (word (L.base (some u)) k) := by
  have hcall : (callSwitch L t ret a).mode = .svc := by simp [callSwitch, Arm.write, hmode]
  have h0 : (callSwitch L t ret a).reg (.gpr 0) = L.sched := by
    simp [callSwitch, Arm.write, Reg.phys, Arm.put_reg]
  have h1 : (callSwitch L t ret a).reg (.gpr 1) = L.base t := by
    simp [callSwitch, Arm.write, Reg.phys, Arm.put_reg]
  have hspsr : (callSwitch L t ret a).reg (.spsr .irq) = a.reg (.spsr .irq) := by
    simp [callSwitch, Arm.write, Reg.phys, Arm.put_reg]
  have hmem : (callSwitch L t ret a).mem = a.mem := rfl
  obtain ⟨r,hr,hres,_,hsaved,hkept,huser⟩ := rpiCswitch2_spec hcall
  rw [h0] at hsaved hkept
  rw [h1] at hres huser
  rw [hspsr] at huser
  refine ⟨r, hr, hres, huser, hsaved, fun u k hk => ?_⟩
  rw [hkept _ fun j hj => L.base_apart (some u) none (by simp) k hk j hj, hmem]

lemma dispatch_inv (h : Inv L s) {t : Fin n} (ret : Word) (hcur : s.cur = none)
    (ht : s.forked t = true) : Inv L { s with
      arm := (Instr.run rpiCswitch2 (callSwitch L t ret s.arm)).1
      cur := some t
      call := callSwitch L t ret s.arm } := by
  obtain ⟨hmode,hoff⟩ := h.sched hcur
  have hcall : (callSwitch L t ret s.arm).mode = .svc := by
    simp [callSwitch, Arm.write, hmode]
  obtain ⟨a,ha,hres,_,hsaved,hkept⟩ := dispatch_spec (L := L) hmode t ret
  have hpsr : ∀ u, s.forked u = true →
      (a.mem (word (L.base (some u)) 2)).extractLsb' 0 5 = Mode.usr.bits := by
    intro u hu
    rw [hkept u 2 (by decide)]
    exact h.saved u hu
  rw [ha]
  refine ⟨hpsr, fun hc => absurd hc (by simp), fun _ => ⟨?_, hsaved, hcall, ?_⟩⟩
  · rw [mode_of_ctl hres.ctl, hpsr t ht]
    decide
  · exact hoff

/-- What a handler leaves behind, whichever way it goes back: the scheduler's registers, and a
save area for `t` whose status is the interrupted one or the one it had. -/
structure Returned (L : Layout n) (t : Fin n) (psr : Word) (sp : Word) (m : Word → Word)
    (r : Arm) : Prop where
  resumes : Resumes r.mem L.sched r
  sp : r.reg (.sp .svc) = sp
  kept : ∀ y, y ≠ some t → ∀ k < 17, r.mem (word (L.base y) k) = m (word (L.base y) k)
  status : r.mem (word (L.base (some t)) 2) = psr ∨
    r.mem (word (L.base (some t)) 2) = m (word (L.base (some t)) 2)

section Handlers
variable {t : Fin n} {c : CCode} {a : Arm}

/-- Copying the frame to the area of `t` and running compiled code. -/
lemma copied {b : Arm} (hb : b = compiled L c { a with
      mem := copyWords 17 (L.base (some t)) intFrame a.mem }) :
    b.mode = a.mode ∧ (∀ y, y ≠ some t → ∀ k < 17, b.mem (word (L.base y) k) =
      a.mem (word (L.base y) k)) ∧
    ∀ k < 17, b.mem (word (L.base (some t)) k) = a.mem (word intFrame k) := by
  subst hb
  refine ⟨rfl, fun y hy k hk => ?_, fun k hk => ?_⟩
  · rw [compiled_mem L _ _ y hk]
    exact copyWords_off fun j hj => L.base_apart y (some t) hy k hk j hj
  · rw [compiled_mem L _ _ (some t) hk]
    exact copyWords_word hk (by decide)

lemma enter_returned {b : Arm} (hpriv : b.mode ≠ .usr) {psr : Word}
    (hkept : ∀ y, y ≠ some t → ∀ k < 17, b.mem (word (L.base y) k) = a.mem (word (L.base y) k))
    (hstatus : b.mem (word (L.base (some t)) 2) = psr ∨
      b.mem (word (L.base (some t)) 2) = a.mem (word (L.base (some t)) 2)) :
    Returned L t psr (a.mem L.sched) a.mem (enter L b) := by
  obtain ⟨hres,hsp⟩ := enter_spec (L := L) hpriv
  have hmem := hres.mem
  have hsched := hkept none (by simp) 0 (by decide)
  rw [word_zero] at hsched
  exact ⟨hmem.symm ▸ hres, hsp.trans hsched, hmem.symm ▸ hkept, hmem.symm ▸ hstatus⟩

/-- Preemption and yield. -/
lemma save_returned {f : CFn} (hf : f = .saveContext ∨ f = .saveContextYield)
    (hpriv : a.mode ≠ .usr) (h0 : a.reg (.gpr 0) = intFrame) :
    Returned L t (a.mem (word intFrame 2)) (a.mem L.sched) a.mem (handle L (some t) c f a) ∧
      ∀ k < 17, (handle L (some t) c f a).mem (word (L.base (some t)) k) =
        a.mem (word intFrame k) := by
  have hread : a.read (.r 0) = intFrame := h0
  obtain ⟨b,hb⟩ : ∃ b, b = compiled L c { a with
    mem := copyWords 17 (L.base (some t)) intFrame a.mem } := ⟨_,rfl⟩
  obtain ⟨hmode,hkept,harea⟩ := copied hb
  have hh : handle L (some t) c f a = enter L b := by
    rcases hf with rfl | rfl <;> rw [handle, hread, hb]
  have hpriv' : b.mode ≠ .usr := by rwa [hmode]
  rw [hh]
  refine ⟨enter_returned hpriv' hkept (.inl (harea 2 (by decide))), fun k hk => ?_⟩
  rw [(enter_spec hpriv').1.mem, harea k hk]

lemma exit_returned (psr : Word) (hpriv : a.mode ≠ .usr) :
    Returned L t psr (a.mem L.sched) a.mem (handle L (some t) c .rpiExit a) :=
  enter_returned (b := compiled L c a) hpriv (fun y _ k hk => compiled_mem L c a y hk)
    (.inr (compiled_mem L c a (some t) (by decide)))

/-- `rpi_sleep` comes back on its own stack pointer. -/
lemma sleep_returned (hmode : a.mode = .svc) (h1 : a.reg (.gpr 1) = intFrame)
    (hsp : a.reg (.sp .svc) = intFrame) :
    Returned L t (a.mem (word intFrame 2)) L.sleepSp a.mem (handle L (some t) c .rpiSleep a) ∧
      ∀ k < 17, (handle L (some t) c .rpiSleep a).mem (word (L.base (some t)) k) =
        a.mem (word intFrame k) := by
  have hread : a.read (.r 1) = intFrame := h1
  have hstack : a.read .sp = intFrame := by rw [Arm.read, hmode]; exact hsp
  obtain ⟨b,hb⟩ : ∃ b, b = compiled L c { a with
    mem := copyWords 17 (L.base (some t)) intFrame a.mem } := ⟨_,rfl⟩
  obtain ⟨hmode',hkept,harea⟩ := copied hb
  obtain ⟨d,hd⟩ : ∃ d, d = ((b.put (.gpr 0) L.old).put (.gpr 1) L.sched).write .sp
    (intFrame - L.frame) := ⟨_,rfl⟩
  have hh : handle L (some t) c .rpiSleep a = (Instr.run rpiCswitch2 d).1 := by
    rw [handle, hread, hstack, hd, hb]
  have hmode₂ : b.mode = .svc := hmode'.trans hmode
  have hmode₃ : d.mode = .svc := by rw [hd, Arm.write, Arm.put_mode]; exact hmode₂
  have h0 : d.reg (.gpr 0) = L.old := by simp [hd, Arm.write, Reg.phys, Arm.put_reg]
  have h1 : d.reg (.gpr 1) = L.sched := by simp [hd, Arm.write, Reg.phys, Arm.put_reg]
  have hsp₃ : d.reg (.sp .svc) = L.sleepSp := by
    simp [hd, Arm.write, Reg.phys, hmode₂, Layout.sleepSp]
  have hmem₃ : d.mem = b.mem := by simp [hd, Arm.write]
  obtain ⟨r,hr,hres,hsp',_,hoff,_⟩ := rpiCswitch2_spec hmode₃
  rw [h0] at hoff
  rw [h1] at hres
  have hsame : ∀ y, ∀ k < 17, r.mem (word (L.base y) k) = b.mem (word (L.base y) k) := by
    intro y k hk
    rw [hoff _ fun j hj hc => L.old_apart y j hj k hk hc.symm, hmem₃]
  rw [hh, hr]
  refine ⟨⟨hres, by rw [hsp', hsp₃], fun y hy k hk => ?_, .inl ?_⟩, fun k hk => ?_⟩
  · rw [hsame y k hk, hkept y hy k hk]
  · rw [hsame _ 2 (by decide), harea 2 (by decide)]
  · rw [hsame _ k hk, harea k hk]

end Handlers

/-- A return keeps the invariant, and the scheduler finds its registers if the supervisor
stack pointer is the one of its call. -/
lemma returned_inv (h : Inv L s) {t : Fin n} (hcur : s.cur = some t) {m : Word → Word}
    {sp : Word} {r : Arm}
    (hm : ∀ y, ∀ k < 17, m (word (L.base y) k) = s.arm.mem (word (L.base y) k))
    (hr : Returned L t s.arm.cpsr sp m r) : Inv L { s with arm := r, cur := none } ∧
      (Preserved s.call r ↔ sp = s.call.reg (.sp .svc)) := by
  obtain ⟨hmode,hsaved,hcmode,hcoff⟩ := h.user (by simp [hcur])
  have hsaved' : SavedAt r.mem L.sched s.call :=
    hsaved.congr fun k hk => (hr.kept none (by simp) k hk).trans (hm none k hk)
  have hctl : r.ctl = s.call.ctl := by rw [hr.resumes.ctl, hsaved'.cpsr, cpsr_ctl]
  refine ⟨⟨fun u hu => ?_, fun _ => ?_, fun hc => absurd rfl hc⟩, ?_⟩
  · have hold := h.saved u hu
    rw [← hm (some u) 2 (by decide)] at hold
    by_cases hut : u = t
    · subst hut
      rcases hr.status with hs | hs
      · rw [hs, cpsr_bits]
        exact bits_of_usr hmode
      · rw [hs]
        exact hold
    · rw [hr.kept (some u) (by simpa using hut) 2 (by decide)]
      exact hold
  · exact ⟨by rw [Arm.mode, hctl]; exact hcmode, by rw [Arm.irqOff, hctl]; exact hcoff⟩
  · rw [hsaved'.preserved_iff hr.resumes, hr.sp]

/-- A handler's frame lies outside the save areas. -/
lemma framed_areas {m : Mode} {a t : Arm} (h : Framed m a t) (y : Option (Fin n)) {k : ℕ}
    (hk : k < 17) : t.mem (word (L.base y) k) = a.mem (word (L.base y) k) :=
  h.off _ fun j hj hc => L.int_apart y j hj k hk hc.symm

lemma framed_sched {m : Mode} {a t : Arm} (h : Framed m a t) : t.mem L.sched = a.mem L.sched := by
  have hzero := framed_areas (L := L) h none (k := 0) (by decide)
  rwa [word_zero] at hzero

lemma take_mode (a : Arm) (ret : Word) :
    (a.take .irq ret).mode = .irq ∧ (a.take .svc ret).mode = .svc := by
  have hbits : ∀ m, (a.take m ret).mode = .ofBits m.bits := fun m =>
    congrArg Mode.ofBits BitVec.extractLsb'_append_eq_right
  rw [hbits, hbits]
  decide

lemma take_spsr (a : Arm) (m : Mode) (ret : Word) : (a.take m ret).reg (.spsr m) = a.cpsr :=
  Arm.put_reg_self ..

/-- What a step can be. -/
inductive Stepped (L : Layout n) (s : Ctx n) : CtxEvent n → Ctx n → Prop where
  | run (c : CCode) : Stepped L s (.run c) { s with arm := compiled L c s.arm }
  | fork (t : Fin n) (f : ForkArgs) (hnew : s.forked t = false) : Stepped L s (.fork t f) { s with
      arm.mem := initArea (L.base t) f (userPsr s.arm.cpsr) s.arm.mem
      forked := Function.update s.forked t true }
  | dispatch (t : Fin n) (ret : Word) (hidle : s.cur = none) (hforked : s.forked t = true) :
    Stepped L s (.dispatch t ret) { s with
      arm := (Instr.run rpiCswitch2 (callSwitch L t ret s.arm)).1
      cur := some t
      call := callSwitch L t ret s.arm }
  | timer (c : CCode) (f : CFn) (hon : s.arm.irqOff = false)
    (hf : (Instr.run interruptAsm (s.arm.take .irq (s.arm.pc + 4))).2 = some f) :
    Stepped L s (.timer c) { s with
      arm := handle L s.cur c f (Instr.run interruptAsm (s.arm.take .irq (s.arm.pc + 4))).1
      cur := none }
  | swi (c : CCode) (f : CFn) (hmode : s.arm.mode = .usr)
    (hf : (Instr.run swiHandlerAsm (s.arm.take .svc (s.arm.pc + 4))).2 = some f) :
    Stepped L s (.swi c) { s with
      arm := handle L s.cur c f (Instr.run swiHandlerAsm (s.arm.take .svc (s.arm.pc + 4))).1
      cur := none }

theorem step_cases {e : CtxEvent n} (h : step L s e = some s') : Stepped L s e s' := by
  cases e with
  | run c =>
    obtain rfl := Option.some.inj h
    exact .run c
  | fork t f =>
    cases hnew : s.forked t with
    | true => simp [step, hnew] at h
    | false =>
      simp only [step, hnew, Bool.false_eq_true, if_false, Option.some.injEq] at h
      exact h ▸ .fork t f hnew
  | dispatch t ret =>
    by_cases hc : s.cur = none ∧ s.forked t = true
    · simp only [step, hc, and_self, if_true, Option.some.injEq] at h
      exact h ▸ .dispatch t ret hc.1 hc.2
    · simp [step, hc] at h
  | timer c =>
    cases hon : s.arm.irqOff with
    | true => simp [step, hon] at h
    | false =>
      simp only [step, hon, Bool.false_eq_true, if_false] at h
      obtain ⟨f,hf,rfl⟩ := Option.map_eq_some_iff.mp h
      exact .timer c f hon hf
  | swi c =>
    by_cases hmode : s.arm.mode = .usr
    · simp only [step, hmode, if_true] at h
      obtain ⟨f,hf,rfl⟩ := Option.map_eq_some_iff.mp h
      exact .swi c f hmode hf
    · simp [step, hmode] at h

lemma take_lr (a : Arm) (m : Mode) (ret : Word) : (a.take m ret).reg (.lr m) = ret := by
  simp [Arm.take, Arm.put_reg]

/-- The frame of a handler, as one of the interrupted thread. -/
lemma AreaOf.of_take {a : Arm} {m : Mode} {f : Word → Word} {b ret pc psr : Word} (hm : m ≠ .usr)
    (h : AreaOf f b (a.take m ret) pc psr) : AreaOf f b a pc psr := by
  refine h.of_before (fun i => ?_) ?_ ?_
  · simp [Arm.take, Arm.put_reg]
  · simp [Arm.take, Arm.put_reg]
  · simp [Arm.take, Arm.put_reg, hm.symm]

/-- The way back from thread `t` to the scheduler: the C function of the handler finds the memory
`m`, and the machine that the scheduler goes on with is `r`. -/
structure BackFrom (L : Layout n) (t : Fin n) (s : Ctx n) (e : CtxEvent n) (m : Word → Word)
    (sp : Word) (r : Arm) : Prop where
  memory : ∀ y, ∀ k < 17, m (word (L.base y) k) = s.arm.mem (word (L.base y) k)
  returned : Returned L t s.arm.cpsr sp m r
  stack : sp = s.call.reg (.sp .svc) ↔ (Sleeps s e → s.call.reg (.sp .svc) = L.sleepSp)
  area : Suspends s e → AreaOf r.mem (L.base (some t)) s.arm (resumeAt s e) s.arm.cpsr

section Back
variable {t : Fin n} {c : CCode} {f : CFn} (hsched : s.arm.mem L.sched = s.call.reg (.sp .svc))
include hsched

lemma timer_back (hf : (Instr.run interruptAsm (s.arm.take .irq (s.arm.pc + 4))).2 = some f) :
    ∃ m sp, BackFrom L t s (.timer c) m sp
      (handle L (some t) c f (Instr.run interruptAsm (s.arm.take .irq (s.arm.pc + 4))).1) := by
  obtain ⟨a,ha,hframe,h0,harea⟩ := interruptAsm_spec (take_mode s.arm (s.arm.pc + 4)).1
  rw [ha, Option.some.injEq] at hf
  subst hf
  have hpriv : a.mode ≠ .usr := by rw [hframe.mode]; decide
  obtain ⟨hr,hcopy⟩ := save_returned (L := L) (t := t) (c := c) (.inl rfl) hpriv h0
  rw [hframe.psr, take_spsr, framed_sched hframe] at hr
  rw [take_lr, take_spsr, BitVec.add_sub_cancel] at harea
  rw [ha]
  exact ⟨_, _, fun y k hk => framed_areas hframe y hk, hr,
    ⟨fun _ hs => absurd hs id, fun _ => hsched⟩,
    fun _ => (AreaOf.of_take (by decide) harea).congr hcopy⟩

/-- One case for each of exit, sleep and yield. -/
lemma swi_back (hf : (Instr.run swiHandlerAsm (s.arm.take .svc (s.arm.pc + 4))).2 = some f) :
    ∃ m sp, BackFrom L t s (.swi c) m sp
      (handle L (some t) c f (Instr.run swiHandlerAsm (s.arm.take .svc (s.arm.pc + 4))).1) := by
  have hr0 : (s.arm.take .svc (s.arm.pc + 4)).reg (.gpr 0) = s.arm.reg (.gpr 0) := by
    simp [Arm.take, Arm.put_reg]
  have hspec := swiHandlerAsm_spec (take_mode s.arm (s.arm.pc + 4)).2
  rw [hr0, take_lr, take_spsr] at hspec
  obtain ⟨hone,a,ha,hmode,hmem⟩ | ⟨htwo,a,ha,hframe,h1,hsp,harea⟩ |
    ⟨hother,a,ha,hframe,h0,harea⟩ := hspec
  · rw [ha, Option.some.injEq] at hf
    subst hf
    have hpriv : a.mode ≠ .usr := by rw [hmode]; decide
    have hr := exit_returned (L := L) (t := t) (c := c) s.arm.cpsr hpriv
    rw [hmem] at hr
    rw [ha]
    refine ⟨_, _, fun y k hk => rfl, hr, ⟨fun _ hs => ?_, fun _ => hsched⟩,
      fun hs => absurd hone hs⟩
    rw [Sleeps, hone] at hs
    exact absurd hs (by decide)
  · rw [ha, Option.some.injEq] at hf
    subst hf
    obtain ⟨hr,hcopy⟩ := sleep_returned (L := L) (t := t) (c := c) hframe.mode h1 hsp
    rw [hframe.psr, take_spsr] at hr
    rw [ha]
    exact ⟨_, _, fun y k hk => framed_areas hframe y hk, hr,
      ⟨fun hs _ => hs.symm, fun hs => (hs htwo).symm⟩,
      fun _ => (AreaOf.of_take (by decide) harea).congr hcopy⟩
  · rw [ha, Option.some.injEq] at hf
    subst hf
    have hpriv : a.mode ≠ .usr := by rw [hframe.mode]; decide
    obtain ⟨hr,hcopy⟩ := save_returned (L := L) (t := t) (c := c) (.inr rfl) hpriv h0
    rw [hframe.psr, take_spsr, framed_sched hframe] at hr
    rw [ha]
    exact ⟨_, _, fun y k hk => framed_areas hframe y hk, hr,
      ⟨fun _ hs => absurd hs hother, fun _ => hsched⟩,
      fun _ => (AreaOf.of_take (by decide) harea).congr hcopy⟩

end Back

/-- Every way back to the scheduler. -/
theorem back_returned (h : Inv L s) {t : Fin n} {e : CtxEvent n} (hstep : step L s e = some s')
    (ht : s.cur = some t) (hback : s'.cur = none) :
    (∃ m sp, BackFrom L t s e m sp s'.arm) ∧ s' = { s with arm := s'.arm, cur := none } := by
  have hcur : s.cur ≠ none := by simp [ht]
  obtain ⟨_,hsaved,_⟩ := h.user hcur
  cases step_cases hstep with
  | run c => exact absurd hback hcur
  | fork t f hnew => exact absurd hback hcur
  | dispatch t ret hidle hforked => exact absurd hidle hcur
  | timer c f hon hf =>
    rw [ht]
    exact ⟨timer_back hsaved.sp hf, rfl⟩
  | swi c f hmode hf =>
    rw [ht]
    exact ⟨swi_back hsaved.sp hf, rfl⟩

theorem back_spec (h : Inv L s) {e : CtxEvent n} (hstep : step L s e = some s')
    (hcur : s.cur ≠ none) (hback : s'.cur = none) : Inv L s' ∧
      (Preserved s.call s'.arm ↔ (Sleeps s e → s.call.reg (.sp .svc) = L.sleepSp)) := by
  obtain ⟨t,ht⟩ := Option.ne_none_iff_exists'.mp hcur
  obtain ⟨⟨m,sp,hb⟩,hs'⟩ := back_returned h hstep ht hback
  obtain ⟨hinv,hiff⟩ := returned_inv h ht hb.memory hb.returned
  rw [← hs'] at hinv
  exact ⟨hinv, hiff.trans hb.stack⟩

/-- No exception is taken while the scheduler runs: interrupts are off, and it is not in user
mode. -/
lemma Inv.timer_user (h : Inv L s) (hon : s.arm.irqOff = false) : s.cur ≠ none := fun hc => by
  rw [(h.sched hc).2] at hon
  cases hon

lemma Inv.swi_user (h : Inv L s) (hmode : s.arm.mode = .usr) : s.cur ≠ none := fun hc => by
  rw [(h.sched hc).1] at hmode
  cases hmode

/-- Every step keeps the invariant. -/
theorem step_inv (h : Inv L s) {e : CtxEvent n} (hstep : step L s e = some s') : Inv L s' := by
  by_cases hback : s.cur ≠ none ∧ s'.cur = none
  · exact (back_spec h hstep hback.1 hback.2).1
  · cases step_cases hstep with
    | run c => exact run_inv h c
    | fork t f hnew => exact fork_inv h t f
    | dispatch t ret hidle hforked => exact dispatch_inv h ret hidle hforked
    | timer c f hon hf => exact absurd ⟨h.timer_user hon,rfl⟩ hback
    | swi c f hmode hf => exact absurd ⟨h.swi_user hmode,rfl⟩ hback

/-- In every run, each time control comes back to `threadSched` it has the registers of its
last call of `rpi_cswitch2` exactly when it does not come back through `rpi_sleep`, or the
supervisor stack pointer of that call was already the one that `rpi_sleep` leaves behind. -/
theorem context_preserved_iff {a : Arm} {f : ForkArgs} {es : List (CtxEvent n)} {e : CtxEvent n}
    (hmode : a.mode = .svc) (hoff : a.irqOff = true)
    (hrun : es.foldlM (step L) (start L f a) = some s) (hstep : step L s e = some s')
    (hcur : s.cur ≠ none) (hback : s'.cur = none) :
    Preserved s.call s'.arm ↔ (Sleeps s e → s.call.reg (.sp .svc) = L.sleepSp) :=
  (back_spec (foldlM_invariant (P := Inv L) (fun _ _ _ h => step_inv h) (start_inv f hmode hoff)
    hrun) hstep hcur hback).2

/-- One user thread, its block behind the scheduler's. -/
def oneThread : Layout 1 where
  base x := if x = none then 0x10000c else 0x10204c
  frame := 0x2100
  old := intFrame - 0x20f0
  base_apart := by decide +kernel
  int_apart := by decide +kernel
  old_apart := by decide +kernel

/-- A main program with interrupts off. -/
def mainProgram : Arm := ⟨fun _ => 0, 0, 0b10010011, fun _ => 0, 0x8000⟩

def schedArgs : ForkArgs := ⟨0x1020a0, 0, 0x8400, 0x8800⟩

/-- Compiled code that leaves `w` in r0 and zeros elsewhere. -/
def leaves (w : Word) : CCode := ⟨fun i => if i = 0 then w else 0, 0x104000, 0, 0x8900, 0, fun _ => 0⟩

/-- A thread is forked, dispatched and does something. -/
def oneRound (w : Word) : List (CtxEvent 1) :=
  [.fork 0 ⟨0x104000, 0, 0x8600, 0x8800⟩, .dispatch 0 0x8480, .run (leaves w)]

/-- Where the run and one more step end: who runs before and after, and whether the supervisor
stack pointer is that of the call. -/
def backAfter (w : Word) (e : CtxEvent 1) : Option (Option (Fin 1) × Option (Fin 1) × Bool) :=
  ((oneRound w).foldlM (step oneThread) (start oneThread schedArgs mainProgram)).bind fun s =>
    (step oneThread s e).map fun s' =>
      (s.cur, s'.cur, s'.arm.reg (.sp .svc) == s.call.reg (.sp .svc))

lemma backAfter_eq {w : Word} {e : CtxEvent 1} {r : Option (Fin 1) × Option (Fin 1) × Bool}
    (h : backAfter w e = some r) : ∃ s s',
      (oneRound w).foldlM (step oneThread) (start oneThread schedArgs mainProgram) = some s ∧
        step oneThread s e = some s' ∧ s.cur = r.1 ∧ s'.cur = r.2.1 ∧
          (s'.arm.reg (.sp .svc) == s.call.reg (.sp .svc)) = r.2.2 := by
  obtain ⟨s,hs,h⟩ := Option.bind_eq_some_iff.mp h
  obtain ⟨s',hs',rfl⟩ := Option.map_eq_some_iff.mp h
  exact ⟨s, s', hs, hs', rfl, rfl, rfl⟩

theorem context_preserved_iff_timer : ∃ s s',
    (oneRound 0).foldlM (step oneThread) (start oneThread schedArgs mainProgram) = some s ∧
      step oneThread s (.timer (leaves 0)) = some s' ∧
        (Preserved s.call s'.arm ↔
          (Sleeps s (.timer (leaves 0)) → s.call.reg (.sp .svc) = oneThread.sleepSp)) := by
  have hback : backAfter 0 (.timer (leaves 0)) = some (some 0, none, true) := by decide +kernel
  obtain ⟨s,s',hs,hs',hcur,hcur',_⟩ := backAfter_eq hback
  exact ⟨s, s', hs, hs', context_preserved_iff (by decide) (by decide) hs hs'
    (by simp [hcur]) hcur'⟩

/-- The first call of `sleep` moves the scheduler's stack into the interrupt stack. -/
theorem sleep_moves_stack : ∃ s s',
    (oneRound 2).foldlM (step oneThread) (start oneThread schedArgs mainProgram) = some s ∧
      step oneThread s (.swi (leaves 0)) = some s' ∧ s.cur ≠ none ∧ s'.cur = none ∧
        ¬Preserved s.call s'.arm := by
  have hback : backAfter 2 (.swi (leaves 0)) = some (some 0, none, false) := by decide +kernel
  obtain ⟨s,s',hs,hs',hcur,hcur',hsp⟩ := backAfter_eq hback
  refine ⟨s, s', hs, hs', by simp [hcur], hcur', fun hp => ?_⟩
  rw [hp.sp] at hsp
  simp at hsp

end Ctx
end DistributedPis
