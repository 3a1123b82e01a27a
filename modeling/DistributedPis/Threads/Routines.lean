import DistributedPis.Threads.Context

/-! What the assembly routines do: each is run once, symbolically, and later proofs only use
its result. -/
namespace DistributedPis
open Library Instr Op

section Gprs
variable (s : Arm) {m : Mode} {b : Word}

lemma gprs_nodup : gprs.Nodup := by decide

lemma gprs_get : ∀ i : Fin 13, gprs[(i : ℕ)]? = some (.r i) := by decide

lemma load_gpr (i : Fin 13) : (s.load m b gprs).reg (.gpr i) = s.mem (word b i) :=
  s.load_reg (gprs_get i) gprs_nodup

lemma load_lr : (s.load m b gprs).reg (.lr m) = s.mem (word b 13) :=
  s.load_reg (r := .lr) (k := 13) rfl gprs_nodup

lemma load_other {p : PhysReg} (hgpr : ∀ i, p ≠ .gpr i) (hlr : p ≠ .lr m) :
    (s.load m b gprs).reg p = s.reg p := by
  refine s.load_reg_of_not_mem p fun r hr => ?_
  rcases List.mem_append.mp hr with hr | hr
  · obtain ⟨i,_,rfl⟩ := List.mem_map.mp hr
    exact hgpr i
  · obtain rfl := List.mem_singleton.mp hr
    exact hlr

end Gprs

/-- The registers of a save area are those of the machine. -/
structure Resumes (m : Word → Word) (b : Word) (s : Arm) : Prop where
  reg : ∀ i : Fin 13, s.reg (.gpr i) = m (word b (3+i))
  pc : s.pc = m (word b 16)
  ctl : s.ctl = (m (word b 2)).extractLsb' 0 8
  mem : s.mem = m

/-- What `msr` makes of a status word: it writes the upper and the lower byte, between them the
old value stays. -/
def msrFlags (psr spsr : Word) : BitVec 24 := psr.extractLsb' 24 8 ++ spsr.extractLsb' 8 16

/-- The user's banked registers are those of the save area, and the flags as far as `msr`
restores them. -/
structure ResumesUser (m : Word → Word) (b spsr : Word) (s : Arm) : Prop where
  sp : s.reg (.sp .usr) = m b
  lr : s.reg (.lr .usr) = m (word b 1)
  flags : s.flags = msrFlags (m (word b 2)) spsr

/-! The two switching routines are cut into pieces. -/

def resumeTail (x : Fin 13) : List (Instr CFn) :=
  ops [pop [.r x], msrSpsr (.r x), pop gprs] ++ [.movsPcLr]

def enterHead : List Op :=
  [msrCpsr irqMode, mov .sp (.r 0), pop [.r 1, .r 2], msrCpsr superMode, mov .sp (.r 1),
    mov .lr (.r 2), msrCpsr irqMode]

def saveHead : List Op :=
  [.add (.r 0) (.r 0) 64, stmda (.r 0) gprs, mov (.r 5) (.r 1), mov (.r 4) (.r 0),
    mrsCpsr (.r 2), mov (.r 1) .lr, mov (.r 0) .sp]

def switchHead : List Op :=
  [stmda (.r 4) [.r 0, .r 1, .r 2], mov (.r 0) (.r 5), ldmiaUser (.r 0) [.sp, .lr],
    .add (.r 0) (.r 0) 8, msrCpsr irqMode, mov .sp (.r 0)]

lemma rpiEnter_split : rpiEnter = ops enterHead ++ resumeTail 1 := rfl

lemma rpiCswitch2_split : rpiCswitch2 = ops saveHead ++ (ops switchHead ++ resumeTail 3) := rfl

/-- The status word goes through a register into the saved status. -/
lemma status_head (x : Fin 13) {b : Word} {s : Arm} (hmode : s.mode = .irq)
    (hsp : s.reg (.sp .irq) = word b 2) :
    ∃ t, [pop [.r x], msrSpsr (.r x)].foldl exec s = t ∧ t.mode = .irq ∧ t.mem = s.mem ∧
      t.reg (.sp .irq) = word b 3 ∧
      t.reg (.spsr .irq) = (s.mem (word b 2)).extractLsb' 24 8 ++
        (s.reg (.spsr .irq)).extractLsb' 8 16 ++ (s.mem (word b 2)).extractLsb' 0 8 ∧
      ∀ p, (∀ i, p ≠ .gpr i) → p ≠ .sp .irq → p ≠ .spsr .irq → t.reg p = s.reg p := by
  have hsp' : word b 2 + size [.r x] = word b 3 := (word_word b 2 1).symm ▸ rfl
  have hload : ∀ p, (∀ i, p ≠ .gpr i) → (s.load .irq (word b 2) [.r x]).reg p = s.reg p :=
    fun p hp => Arm.load_reg_of_not_mem _ _ (by simp [Reg.phys, hp])
  have hx : (s.load .irq (word b 2) [.r x]).reg (.gpr x) = s.mem (word b 2) := Arm.put_reg_self ..
  rw [List.foldl_cons, exec_pop hmode _ hsp, List.foldl_cons,
    exec_msrSpsr (m := .irq) (by simp [hmode]), List.foldl_nil]
  refine ⟨_, rfl, by simp [hmode], by simp, ?_, ?_, fun p hgpr hsp hspsr => ?_⟩
  · rw [Arm.put_reg_of_ne _ _ (by simp), Arm.put_reg_self, hsp']
  · rw [Arm.put_reg_self, Reg.phys, Arm.put_reg_of_ne _ _ (by simp), hx,
      Arm.put_reg_of_ne _ _ (by simp), hload _ (by simp)]
  · rw [Arm.put_reg_of_ne _ _ hspsr, Arm.put_reg_of_ne _ _ hsp, hload p hgpr]

/-- The end of both switching routines, from IRQ mode with the stack pointer at the status
word. -/
lemma resume_spec (x : Fin 13) {b : Word} {s : Arm} (hmode : s.mode = .irq)
    (hsp : s.reg (.sp .irq) = word b 2) :
    ∃ t, run (resumeTail x) s = (t,none) ∧ Resumes s.mem b t ∧
      (∀ m, m ≠ .irq → t.reg (.sp m) = s.reg (.sp m) ∧ t.reg (.lr m) = s.reg (.lr m)) ∧
      t.flags = msrFlags (s.mem (word b 2)) (s.reg (.spsr .irq)) := by
  obtain ⟨s₁,hs₁,hmode₁,hmem₁,hsp₁,hspsr₁,hkept⟩ := status_head x hmode hsp
  obtain ⟨s₂,hs₂⟩ : ∃ s₂, s₂ = exec s₁ (pop gprs) := ⟨_,rfl⟩
  have hsplit : resumeTail x =
      ops [pop [.r x], msrSpsr (.r x)] ++ (ops [pop gprs] ++ [.movsPcLr]) := rfl
  have hrun : run (resumeTail x) s = run [.movsPcLr] s₂ := by
    rw [hsplit, run_ops, hs₁, run_ops, hs₂]
    rfl
  rw [exec_pop hmode₁ _ hsp₁] at hs₂
  have hmode₂ : s₂.mode = .irq := by simp [hs₂, hmode₁]
  have hother : ∀ p, (∀ i, p ≠ .gpr i) → p ≠ .lr .irq → p ≠ .sp .irq → s₂.reg p = s₁.reg p := by
    intro p hgpr hlr hsp
    rw [hs₂, Arm.put_reg_of_ne _ _ hsp, load_other _ hgpr hlr]
  have hspsr₂ := (hother (.spsr .irq) (by simp) (by simp) (by simp)).trans hspsr₁
  refine ⟨_, by rw [hrun]; rfl, ⟨fun i => ?_, ?_, ?_, ?_⟩, fun m hm => ⟨?_, ?_⟩, ?_⟩
  · simp only [hs₂]
    rw [Arm.put_reg_of_ne _ _ (by simp), load_gpr, word_word, hmem₁]
  · simp only [Arm.read, Reg.phys, hmode₂]
    rw [hs₂, Arm.put_reg_of_ne _ _ (by simp), load_lr, word_word, hmem₁]
  · simp only [hmode₂]
    rw [hspsr₂]
    exact BitVec.extractLsb'_append_eq_right
  · simp [hs₂, hmem₁]
  · exact (hother _ (by simp) (by simp) (by simpa using hm)).trans
      (hkept _ (by simp) (by simpa using hm) (by simp))
  · exact (hother _ (by simp) (by simpa using hm) (by simp)).trans
      (hkept _ (by simp) (by simp) (by simp))
  · simp only [hmode₂]
    rw [hspsr₂]
    exact BitVec.extractLsb'_append_eq_left

@[simp] lemma ofBits_irqMode : Mode.ofBits (irqMode.extractLsb' 0 5) = .irq := by decide

@[simp] lemma ofBits_superMode : Mode.ofBits (superMode.extractLsb' 0 5) = .svc := by decide

/-- `rpi_enter` restores everything, the supervisor stack pointer included. -/
theorem rpiEnter_spec {a : Arm} (hpriv : a.mode ≠ .usr) :
    ∃ t, run rpiEnter a = (t,none) ∧ Resumes a.mem (a.reg (.gpr 0)) t ∧
      t.reg (.sp .svc) = a.mem (a.reg (.gpr 0)) := by
  obtain ⟨s,hs,hmode,hmem,hirq,hsvc⟩ : ∃ s, enterHead.foldl exec a = s ∧ s.mode = .irq ∧
      s.mem = a.mem ∧ s.reg (.sp .irq) = word (a.reg (.gpr 0)) 2 ∧
        s.reg (.sp .svc) = a.mem (a.reg (.gpr 0)) := by
    rw [enterHead, List.foldl_cons, exec_msrCpsr rfl hpriv, List.foldl_cons, exec_mov (m := .irq) (by simp),
      List.foldl_cons, exec_pop (m := .irq) (b := a.reg (.gpr 0)) (by simp) _ (by simp [Reg.phys]),
      List.foldl_cons, exec_msrCpsr (m := .irq) (by simp) (by decide), List.foldl_cons,
      exec_mov (m := .svc) (by simp), List.foldl_cons, exec_mov (m := .svc) (by simp),
      List.foldl_cons, exec_msrCpsr (m := .svc) (by simp) (by decide), List.foldl_nil]
    refine ⟨_, rfl, by simp, by simp, ?_, ?_⟩
    · simp [Reg.phys, Arm.put_reg]
      rfl
    · simp [Reg.phys, Arm.put_reg, Arm.load]
  obtain ⟨t,ht,hres,hbank,_⟩ := resume_spec 1 hmode hirq
  exact ⟨t, by rw [rpiEnter_split, run_ops, hs, ht], hmem ▸ hres,
    by rw [(hbank .svc (by decide)).1, hsvc]⟩

/-- The save area at `b` holds what `rpi_cswitch2` needs to come back to `a`. -/
structure SavedAt (m : Word → Word) (b : Word) (a : Arm) : Prop where
  reg : ∀ i : Fin 13, 4 ≤ i → m (word b (3+i)) = a.reg (.gpr i)
  sp : m b = a.reg (.sp .svc)
  pc : m (word b 16) = a.reg (.lr .svc)
  cpsr : m (word b 2) = a.cpsr

/-- The two stores of `rpi_cswitch2` fill the save area and nothing else. -/
lemma save_off {m : Word → Word} {b x : Word} {ws us : List Word} (hws : ws.length = 14)
    (hus : us.length = 3) (hx : ∀ k < 17, x ≠ word b k) :
    storeWords (storeWords m (word b 3) ws) b us x = m x := by
  rw [storeWords_off fun k hk => hx k (by omega), storeWords_off fun k hk => ?_]
  rw [word_word]
  exact hx _ (by omega)

lemma save_high {m : Word → Word} {b w : Word} {ws us : List Word} (hws : ws.length = 14)
    (hus : us.length = 3) {k : ℕ} (hk : ws[k]? = some w) :
    storeWords (storeWords m (word b 3) ws) b us (word b (3+k)) = w := by
  have hlt : k < ws.length := (List.getElem?_eq_some_iff.mp hk).1
  rw [storeWords_off, ← word_word, storeWords_word hk (by omega)]
  intro j hj hc
  exact absurd (word_inj (by omega) (by omega) hc) (by omega)

lemma area_end (b : Word) : b + 64 + 4 = word b 3 + size gprs := by
  have hsize : size gprs = 56 := by decide
  rw [hsize]
  unfold word
  bv_omega

/-- The first half of `rpi_cswitch2`: the big block is stored, the three words that are left are
in r0 to r2, their address and the other save area in r4 and r5. -/
lemma save_head {a : Arm} (hmode : a.mode = .svc) {b : Word} (hb : a.reg (.gpr 0) = b) :
    ∃ s, saveHead.foldl exec a = s ∧ s.mode = .svc ∧
      s.mem = storeWords a.mem (word b 3)
        (gprs.map fun r => (a.put (.gpr 0) (b+64)).reg (r.phys .svc)) ∧
      s.reg (.gpr 4) = word b 3 - 4 ∧ s.reg (.gpr 5) = a.reg (.gpr 1) ∧
      [s.reg (.gpr 0), s.reg (.gpr 1), s.reg (.gpr 2)] =
        [a.reg (.sp .svc), a.reg (.lr .svc), a.cpsr] ∧ s.reg (.sp .svc) = a.reg (.sp .svc) ∧
      s.reg (.spsr .irq) = a.reg (.spsr .irq) := by
  rw [saveHead, List.foldl_cons, exec_add _ hmode, List.foldl_cons,
    exec_stmda (m := .svc) (b := word b 3) (by simp [hmode]) _ _
      (by simp only [Reg.phys, Arm.put_reg_self, hb]; exact area_end b), List.foldl_cons,
    exec_mov (m := .svc) (by simp [hmode]), List.foldl_cons,
    exec_mov (m := .svc) (by simp [hmode]), List.foldl_cons,
    exec_mrsCpsr (m := .svc) (by simp [hmode]), List.foldl_cons,
    exec_mov (m := .svc) (by simp [hmode]), List.foldl_cons,
    exec_mov (m := .svc) (by simp [hmode]), List.foldl_nil]
  refine ⟨_, rfl, by simp [hmode], by simp [Reg.phys, hb], ?_, ?_, ?_, ?_, ?_⟩
  all_goals simp [Reg.phys, Arm.put_reg, Arm.cpsr]

/-- The second half, up to the status word of the other area. -/
lemma switch_head {s : Arm} (hmode : s.mode = .svc) {b c : Word}
    (h4 : s.reg (.gpr 4) = word b 3 - 4) (h5 : s.reg (.gpr 5) = c) :
    ∃ t, switchHead.foldl exec s = t ∧ t.mode = .irq ∧
      t.reg (.sp .irq) = word c 2 ∧ t.reg (.sp .svc) = s.reg (.sp .svc) ∧
      t.mem = storeWords s.mem b [s.reg (.gpr 0), s.reg (.gpr 1), s.reg (.gpr 2)] ∧
      t.reg (.sp .usr) = t.mem c ∧ t.reg (.lr .usr) = t.mem (word c 1) ∧
      t.reg (.spsr .irq) = s.reg (.spsr .irq) := by
  have hblock : s.reg (.gpr 4) + 4 = b + size [.r 0, .r 1, .r 2] := by
    rw [h4, BitVec.sub_add_cancel]
    rfl
  rw [switchHead, List.foldl_cons, exec_stmda hmode (.r 4) _ hblock, List.foldl_cons,
    exec_mov (m := .svc) (by simp [hmode]), List.foldl_cons,
    exec_ldmiaUser (m := .svc) (by simp [hmode]), List.foldl_cons,
    exec_add (m := .svc) _ (by simp [hmode]), List.foldl_cons,
    exec_msrCpsr (m := .svc) (by simp [hmode]) (by decide), List.foldl_cons,
    exec_mov (m := .irq) (by simp), List.foldl_nil]
  refine ⟨_, rfl, by simp, ?_, ?_, ?_, ?_, ?_, ?_⟩
  all_goals simp [Reg.phys, Arm.put_reg, Arm.load, h5]
  rfl

/-- `rpi_cswitch2` from supervisor mode saves at r0 and resumes what is at r1, but leaves the
supervisor stack pointer as it is. -/
theorem rpiCswitch2_spec {a : Arm} (hmode : a.mode = .svc) :
    ∃ t, run rpiCswitch2 a = (t,none) ∧ Resumes t.mem (a.reg (.gpr 1)) t ∧
      t.reg (.sp .svc) = a.reg (.sp .svc) ∧ SavedAt t.mem (a.reg (.gpr 0)) a ∧
      (∀ x, (∀ k < 17, x ≠ word (a.reg (.gpr 0)) k) → t.mem x = a.mem x) ∧
      ResumesUser t.mem (a.reg (.gpr 1)) (a.reg (.spsr .irq)) t := by
  obtain ⟨b,hb⟩ : ∃ b, a.reg (.gpr 0) = b := ⟨_,rfl⟩
  obtain ⟨s₁,hs₁,hmode₁,hmem₁,h4,h5,hthree,hsp₁,hspsr₁⟩ := save_head hmode hb
  obtain ⟨s₂,hs₂,hmode₂,hirq,hsp₂,hmem₂,husp,hulr,hspsr₂⟩ := switch_head hmode₁ h4 h5
  obtain ⟨t,ht,hres,hbank,hflags⟩ := resume_spec 3 hmode₂ hirq
  have hmem : t.mem = storeWords (storeWords a.mem (word b 3)
      (gprs.map fun r => (a.put (.gpr 0) (b+64)).reg (r.phys .svc))) b
        [a.reg (.sp .svc), a.reg (.lr .svc), a.cpsr] := by
    rw [hres.mem, hmem₂, hmem₁, hthree]
  have hws : (gprs.map fun r => (a.put (.gpr 0) (b+64)).reg (r.phys .svc)).length = 14 := by
    rw [List.length_map]; rfl
  refine ⟨t, ?_, hres.mem ▸ hres, by rw [(hbank .svc (by decide)).1, hsp₂, hsp₁], ?_, ?_, ?_⟩
  · rw [rpiCswitch2_split, run_ops, hs₁, run_ops, hs₂, ht]
  · rw [hmem, hb]
    refine ⟨fun i hi => ?_, ?_, ?_, storeWords_word (k := 2) rfl (by simp)⟩
    · refine save_high hws rfl ?_
      rw [List.getElem?_map, gprs_get, Option.map_some, Reg.phys, Arm.put_reg_of_ne]
      simp only [ne_eq, PhysReg.gpr.injEq]
      rintro rfl
      exact absurd hi (by decide)
    · exact storeWords_head (by simp)
    · refine save_high (k := 13) hws rfl ?_
      rw [List.getElem?_map]
      rfl
  · intro x hx
    rw [hmem]
    exact save_off hws rfl (hb ▸ hx)
  · obtain ⟨husp',hulr'⟩ := hbank .usr (by decide)
    rw [hres.mem]
    exact ⟨husp'.trans husp, hulr'.trans hulr, by rw [hflags, hspsr₂, hspsr₁]⟩

/-- What the handlers push; `rx` is the register through which the saved status goes. -/
def pushFrame (x : Fin 13) : List Op :=
  [push gprs, mrsSpsr (.r x), push [.r x], stmfdUser .sp [.sp, .lr], .sub .sp .sp 8]

/-- After a handler's pushes: only its frame was written, with the interrupted status in its
third word. -/
structure Framed (m : Mode) (a t : Arm) : Prop where
  mode : t.mode = m
  psr : t.mem (word intFrame 2) = a.reg (.spsr m)
  off : ∀ x, (∀ k < 17, x ≠ word intFrame k) → t.mem x = a.mem x

/-- The 17 words at `b` are those of a user thread that goes on at `pc` with the status `psr` and
the registers of `a`. -/
structure AreaOf (m : Word → Word) (b : Word) (a : Arm) (pc psr : Word) : Prop where
  sp : m b = a.reg (.sp .usr)
  lr : m (word b 1) = a.reg (.lr .usr)
  psr : m (word b 2) = psr
  reg : ∀ i : Fin 13, m (word b (3+i)) = a.reg (.gpr i)
  pc : m (word b 16) = pc

section Frame
variable {m : Word → Word} {f v w x : Word} {ws us : List Word} (hws : ws.length = 14)
  (hus : us.length = 2)
include hws hus

lemma frame_off (hx : ∀ k < 17, x ≠ word f k) :
    storeWords (storeWords (storeWords m (word f 3) ws) (word f 2) [w]) f us x = m x := by
  rw [storeWords_off fun k hk => hx k (by omega), storeWords_off fun k hk => ?_,
    storeWords_off fun k hk => ?_]
  · rw [word_word]
    exact hx _ (by omega)
  · rw [word_word]
    exact hx _ (by simp at hk; omega)

omit hws in
lemma frame_psr :
    storeWords (storeWords (storeWords m (word f 3) ws) (word f 2) [w]) f us (word f 2) = w := by
  rw [storeWords_off]
  · exact storeWords_head (by simp)
  · intro j hj hc
    exact absurd (word_inj (by omega) (by omega) hc) (by omega)

lemma frame_high {k : ℕ} (hk : ws[k]? = some v) :
    storeWords (storeWords (storeWords m (word f 3) ws) (word f 2) [w]) f us (word f (3+k)) =
      v := by
  have hlt : k < ws.length := (List.getElem?_eq_some_iff.mp hk).1
  rw [storeWords_off, storeWords_off, ← word_word, storeWords_word hk (by omega)]
  · intro j hj hc
    rw [word_word] at hc
    have hj' : j < 1 := hj
    exact absurd (word_inj (by omega) (by omega) hc) (by omega)
  · intro j hj hc
    exact absurd (word_inj (by omega) (by omega) hc) (by omega)

end Frame

lemma pushFrame_spec (x : Fin 13) {s : Arm} {m : Mode} (hm : s.mode = m)
    (hsp : s.reg (.sp m) = intStackAddr) (hpriv : m ≠ .usr) :
    ∃ t, (pushFrame x).foldl exec s = t ∧ Framed m s t ∧ t.reg (.sp m) = intFrame ∧
      (∀ i, i ≠ x → t.reg (.gpr i) = s.reg (.gpr i)) ∧
      AreaOf t.mem intFrame s (s.reg (.lr m)) (s.reg (.spsr m)) := by
  have h14 : s.reg (.sp m) = word intFrame 3 + size gprs := by rw [hsp]; decide
  rw [pushFrame, List.foldl_cons, exec_push hm _ h14, List.foldl_cons,
    exec_mrsSpsr (m := m) (by simp [hm]), List.foldl_cons,
    exec_push (m := m) (b := word intFrame 2) (by simp [hm]) _
      (by simp only [Reg.phys, Arm.put_reg]; simp; exact (word_word intFrame 2 1).symm),
    List.foldl_cons, exec_stmfdUser (m := m) (b := intFrame) (by simp [hm]) _ _
      (by simp only [Reg.phys, Arm.put_reg]; simp; decide), List.foldl_cons,
    exec_sub (m := m) _ (by simp [hm]), List.foldl_nil]
  have hmem : ∀ t : Arm, t.mem = storeWords (storeWords (storeWords s.mem (word intFrame 3)
      (gprs.map fun r => s.reg (r.phys m))) (word intFrame 2) [s.reg (.spsr m)]) intFrame
        [s.reg (.sp .usr), s.reg (.lr .usr)] →
      AreaOf t.mem intFrame s (s.reg (.lr m)) (s.reg (.spsr m)) := by
    intro t ht
    have hws : (gprs.map fun r => s.reg (r.phys m)).length = 14 := by rw [List.length_map]; rfl
    rw [ht]
    refine ⟨storeWords_head (by simp), storeWords_word (k := 1) rfl (by simp), frame_psr rfl,
      fun i => frame_high hws rfl ?_, frame_high (k := 13) hws rfl ?_⟩
    · rw [List.getElem?_map, gprs_get]
      rfl
    · rw [List.getElem?_map]
      rfl
  refine ⟨_, rfl, ⟨by simp [hm], ?_, fun a ha => ?_⟩, ?_, fun i hi => ?_, hmem _ ?_⟩
  · simp only [Reg.phys, Arm.put_reg]
    simpa using frame_psr rfl
  · simp only [Reg.phys, Arm.put_reg]
    simpa using frame_off rfl rfl ha
  · simp [Reg.phys, Arm.put_reg]
    decide
  · simp [Reg.phys, Arm.put_reg, hi]
  · simp [Reg.phys, Arm.put_reg, hpriv.symm]

namespace Framed
variable {m : Mode} {a s t : Arm}

/-- Only the mode and the memory count. -/
lemma congr (h : Framed m a s) (hmode : t.mode = s.mode) (hmem : t.mem = s.mem) : Framed m a t :=
  ⟨hmode.trans h.mode, hmem ▸ h.psr, hmem ▸ h.off⟩

/-- The handler may change registers before it pushes. -/
lemma of_before (h : Framed m s t) (hspsr : s.reg (.spsr m) = a.reg (.spsr m))
    (hmem : s.mem = a.mem) : Framed m a t :=
  ⟨h.mode, h.psr.trans hspsr, hmem ▸ h.off⟩

end Framed

lemma AreaOf.of_before {m : Word → Word} {b pc psr : Word} {a s : Arm} (h : AreaOf m b s pc psr)
    (hreg : ∀ i, s.reg (.gpr i) = a.reg (.gpr i)) (hsp : s.reg (.sp .usr) = a.reg (.sp .usr))
    (hlr : s.reg (.lr .usr) = a.reg (.lr .usr)) : AreaOf m b a pc psr where
  sp := h.sp.trans hsp
  lr := h.lr.trans hlr
  psr := h.psr
  reg i := (h.reg i).trans (hreg i)
  pc := h.pc

/-- The timer's handler hands its frame to `save_context`. -/
theorem interruptAsm_spec {a : Arm} (hmode : a.mode = .irq) :
    ∃ t, run interruptAsm a = (t, some .saveContext) ∧ Framed .irq a t ∧
      t.reg (.gpr 0) = intFrame ∧
      AreaOf t.mem intFrame a (a.reg (.lr .irq) - 4) (a.reg (.spsr .irq)) := by
  obtain ⟨s,hs,hsp,hlr,hmode₁,hreg,hmem⟩ : ∃ s, [msrCpsr irqMode, movImm .sp intStackAddr,
      .sub .lr .lr 4].foldl exec a = s ∧ s.reg (.sp .irq) = intStackAddr ∧
        s.reg (.lr .irq) = a.reg (.lr .irq) - 4 ∧ s.mode = .irq ∧
        (∀ p, p ≠ .sp .irq → p ≠ .lr .irq → s.reg p = a.reg p) ∧ s.mem = a.mem := by
    rw [List.foldl_cons, exec_msrCpsr hmode (by decide), List.foldl_cons,
      exec_movImm (m := .irq) _ (by simp), List.foldl_cons, exec_sub (m := .irq) _ (by simp),
      List.foldl_nil]
    refine ⟨_, rfl, ?_, ?_, ?_, fun p hsp hlr => ?_, ?_⟩
    · simp [Reg.phys, Arm.put_reg]
    · simp [Reg.phys, Arm.put_reg]
    · simp
    · simp [Reg.phys, Arm.put_reg, hsp, hlr]
    · simp
  obtain ⟨t,ht,hframe,hsp',_,harea⟩ := pushFrame_spec 1 hmode₁ hsp (by decide)
  have hspsr := hreg (.spsr .irq) (by simp) (by simp)
  have hsplit : interruptAsm = ops [msrCpsr irqMode, movImm .sp intStackAddr, .sub .lr .lr 4] ++
      (ops (pushFrame 1) ++ (ops [mov (.r 0) .sp] ++ [.b .saveContext])) := rfl
  rw [hlr, hspsr] at harea
  refine ⟨t.put (.gpr 0) intFrame, ?_, (hframe.of_before hspsr hmem).congr rfl rfl,
    Arm.put_reg_self .., ?_⟩
  · rw [hsplit, run_ops, hs, run_ops, ht, run_ops, List.foldl_cons, exec_mov hframe.mode, ← hsp']
    rfl
  · exact harea.of_before (fun i => hreg _ (by simp) (by simp)) (hreg _ (by simp) (by simp))
      (hreg _ (by simp) (by simp))

/-- The handler of the software interrupts once its frame is pushed. -/
def swiTail : List (Instr CFn) :=
  ops [cmp (.r 0) 2, moveq (.r 0) (.r 1), moveq (.r 1) .sp] ++
    (.beq .rpiSleep :: (ops [mov (.r 0) .sp] ++ [.b .saveContextYield]))

lemma swiTail_spec {s : Arm} (hmode : s.mode = .svc) (hsp : s.reg (.sp .svc) = intFrame) :
    (s.reg (.gpr 0) = 2 ∧ ∃ t, run swiTail s = (t, some .rpiSleep) ∧ t.mode = .svc ∧
      t.mem = s.mem ∧ t.reg (.gpr 1) = intFrame ∧ t.reg (.sp .svc) = intFrame) ∨
    (s.reg (.gpr 0) ≠ 2 ∧ ∃ t, run swiTail s = (t, some .saveContextYield) ∧ t.mode = .svc ∧
      t.mem = s.mem ∧ t.reg (.gpr 0) = intFrame) := by
  obtain ⟨s₁,hs₁⟩ : ∃ s₁, exec s (cmp (.r 0) 2) = s₁ := ⟨_,rfl⟩
  have hz : s₁.z = decide (s.reg (.gpr 0) = 2) := hs₁ ▸ exec_cmp_z 2 hmode (.r 0)
  have hreg : s₁.reg = s.reg := hs₁ ▸ exec_cmp_reg s 2 (.r 0)
  have hmem : s₁.mem = s.mem := hs₁ ▸ exec_cmp_mem s 2 (.r 0)
  have hmode₁ : s₁.mode = .svc := by rw [← hs₁, exec_cmp_mode, hmode]
  have hrun : run swiTail s = run (ops [moveq (.r 0) (.r 1), moveq (.r 1) .sp] ++
      (.beq .rpiSleep :: (ops [mov (.r 0) .sp] ++ [.b .saveContextYield]))) s₁ := by
    rw [swiTail, run_ops, List.foldl_cons, hs₁, ← run_ops]
  rw [hrun, run_ops, List.foldl_cons, exec_moveq hmode₁]
  by_cases hsleep : s.reg (.gpr 0) = 2
  · have hz : s₁.z = true := by rw [hz]; simpa using hsleep
    obtain ⟨s₂,hs₂⟩ : ∃ s₂, s₁.put (.gpr 0) (s₁.reg (.gpr 1)) = s₂ := ⟨_,rfl⟩
    have hmode₂ : s₂.mode = .svc := by rw [← hs₂, Arm.put_mode, hmode₁]
    have hz₂ : s₂.z = true := hs₂ ▸ hz
    have hsp₂ : s₂.reg (.sp .svc) = intFrame := by
      rw [← hs₂, Arm.put_reg_of_ne _ _ (by simp), hreg, hsp]
    rw [if_pos hz, Reg.phys, Reg.phys, hs₂, List.foldl_cons, exec_moveq hmode₂, if_pos hz₂,
      List.foldl_nil, run, if_pos (by exact hz₂), Reg.phys, Reg.phys, hsp₂]
    refine .inl ⟨hsleep, _, rfl, hmode₂, ?_, Arm.put_reg_self .., ?_⟩
    · rw [Arm.put_mem, ← hs₂, Arm.put_mem, hmem]
    · rw [Arm.put_reg_of_ne _ _ (by simp), hsp₂]
  · have hz : s₁.z = false := by rw [hz]; simpa using hsleep
    rw [if_neg (by simp [hz]), List.foldl_cons, exec_moveq hmode₁, if_neg (by simp [hz]),
      List.foldl_nil, run, if_neg (by simp [hz]), run_ops, List.foldl_cons, exec_mov hmode₁,
      List.foldl_nil, run, Reg.phys, Reg.phys, hreg, hsp]
    exact .inr ⟨hsleep, _, rfl, hmode₁, hmem, Arm.put_reg_self ..⟩

/-- The software interrupts: exit leaves memory alone, the others hand over their frame, in r1
for `rpi_sleep` and in r0 for `save_context_yield`. -/
theorem swiHandlerAsm_spec {a : Arm} (hmode : a.mode = .svc) :
    (a.reg (.gpr 0) = 1 ∧ ∃ t, run swiHandlerAsm a = (t, some .rpiExit) ∧ t.mode = .svc ∧
      t.mem = a.mem) ∨
    (a.reg (.gpr 0) = 2 ∧ ∃ t, run swiHandlerAsm a = (t, some .rpiSleep) ∧ Framed .svc a t ∧
      t.reg (.gpr 1) = intFrame ∧ t.reg (.sp .svc) = intFrame ∧
      AreaOf t.mem intFrame a (a.reg (.lr .svc)) (a.reg (.spsr .svc))) ∨
    (a.reg (.gpr 0) ≠ 2 ∧ ∃ t, run swiHandlerAsm a = (t, some .saveContextYield) ∧
      Framed .svc a t ∧ t.reg (.gpr 0) = intFrame ∧
      AreaOf t.mem intFrame a (a.reg (.lr .svc)) (a.reg (.spsr .svc))) := by
  have hsplit : swiHandlerAsm = ops [cmp (.r 0) 1] ++ (.beq .rpiExit ::
      (ops [movImm .sp intStackAddr] ++ (ops (pushFrame 4) ++ swiTail))) := rfl
  obtain ⟨s₀,hs₀⟩ : ∃ s₀, exec a (cmp (.r 0) 1) = s₀ := ⟨_,rfl⟩
  have hz₀ : s₀.z = decide (a.reg (.gpr 0) = 1) := hs₀ ▸ exec_cmp_z 1 hmode (.r 0)
  have hreg₀ : s₀.reg = a.reg := hs₀ ▸ exec_cmp_reg a 1 (.r 0)
  have hmem₀ : s₀.mem = a.mem := hs₀ ▸ exec_cmp_mem a 1 (.r 0)
  have hmode₀ : s₀.mode = .svc := by rw [← hs₀, exec_cmp_mode, hmode]
  by_cases hexit : a.reg (.gpr 0) = 1
  · refine .inl ⟨hexit, s₀, ?_, hmode₀, hmem₀⟩
    rw [hsplit, run_ops, List.foldl_cons, hs₀, List.foldl_nil, run, hz₀, if_pos (by simpa using hexit)]
  -- the frame is pushed before the flags are looked at again
  obtain ⟨s₁,hs₁⟩ : ∃ s₁, s₀.put (.sp .svc) intStackAddr = s₁ := ⟨_,rfl⟩
  have hmode₁ : s₁.mode = .svc := by rw [← hs₁, Arm.put_mode, hmode₀]
  have hreg₁ : ∀ p, p ≠ .sp .svc → s₁.reg p = a.reg p := by
    intro p hp
    rw [← hs₁, Arm.put_reg_of_ne _ _ hp, hreg₀]
  have hmem₁ : s₁.mem = a.mem := by rw [← hs₁, Arm.put_mem, hmem₀]
  obtain ⟨s₂,hs₂,hframe,hsp₂,hgpr,harea⟩ :=
    pushFrame_spec 4 hmode₁ (by rw [← hs₁, Arm.put_reg_self]) (by decide)
  have hr0 : s₂.reg (.gpr 0) = a.reg (.gpr 0) := by
    rw [hgpr 0 (by decide), hreg₁ _ (by simp)]
  have hframe' : Framed .svc a s₂ := hframe.of_before (hreg₁ _ (by simp)) hmem₁
  rw [hreg₁ (.lr .svc) (by simp), hreg₁ (.spsr .svc) (by simp)] at harea
  have harea' := harea.of_before (fun i => hreg₁ _ (by simp)) (hreg₁ _ (by simp))
    (hreg₁ _ (by simp))
  have hrun : run swiHandlerAsm a = run swiTail s₂ := by
    rw [hsplit, run_ops, List.foldl_cons, hs₀, List.foldl_nil, run, hz₀,
      if_neg (by simpa using hexit), run_ops, List.foldl_cons, exec_movImm _ hmode₀, List.foldl_nil,
      Reg.phys, hs₁, run_ops, hs₂]
  have htail := swiTail_spec hframe'.mode hsp₂
  rw [hrun]
  rw [hr0] at htail
  obtain ⟨hsleep,t,ht,hmode',hmem,h1,hsp⟩ | ⟨hyield,t,ht,hmode',hmem,h0⟩ := htail
  · refine .inr (.inl ⟨hsleep, t, ht, ?_, h1, hsp, hmem ▸ harea'⟩)
    exact hframe'.congr (hmode'.trans hframe'.mode.symm) hmem
  · refine .inr (.inr ⟨hyield, t, ht, ?_, h0, hmem ▸ harea'⟩)
    exact hframe'.congr (hmode'.trans hframe'.mode.symm) hmem

end DistributedPis
