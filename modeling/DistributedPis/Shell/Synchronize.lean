import DistributedPis.Shell.RunProg

/-! How the shell and the Pi find each other on a line with garbage on it (`synchronize` in
`shell.c` and in `server.c`). The shell looks for PI_READY in steps of five bytes, and takes the
first match for the real one. -/
namespace DistributedPis
open Library

/-- The first loop; the fuel is a bound on its rounds. -/
def awaitReady : ℕ → Serial Unit
  | 0 => .fail
  | fuel+1 => do
    let op ← getUint32
    if op = ShellOp.piReady then pure ()
    else do
      let _ ← getUint8
      awaitReady fuel

/-- Returns the first word that is not PI_READY. -/
def drainReady : ℕ → Serial Word
  | 0 => .fail
  | fuel+1 => do
    let op ← getUint32
    if op = ShellOp.piReady then drainReady fuel else pure op

/-- The end of `synchronize`. -/
def awaitAck (fuel : ℕ) : Serial Unit := do
  let op ← drainReady fuel
  if op ≠ ShellOp.ack then .fail else pure ()

/-- `synchronize` of the shell. -/
def synchronize (fuel : ℕ) : Serial Unit := do
  awaitReady fuel
  putUint32 ShellOp.unixReady
  awaitAck fuel

/-- `m` is the number of rounds until there is data. -/
def waitForOp : ℕ → Serial Unit
  | 0 => pure ()
  | m+1 => do
    bootPut32 ShellOp.piReady
    waitForOp m

/-- `synchronize` of the Pi. -/
def serverSynchronize (m : ℕ) : Serial Unit := do
  waitForOp m
  let op ← bootGet32
  if op ≠ ShellOp.unixReady then
    bootErr BootOp.bootError "Expected UNIX_READY"
    .fail
  else bootPut32 ShellOp.ack

/-- The bytes of `m` times PI_READY. -/
def readies (m : ℕ) : List UInt8 := (List.replicate m (wordBytes ShellOp.piReady)).flatten

/-- Both sides have come to their ends, and nothing is left on the link. -/
structure Synchronized (c : Link UInt8 Unit Unit) : Prop where
  shell : c.left = .done ()
  pi : c.right = .done ()
  read : c.toRight = [] ∧ c.toLeft = []

/-- The Pi sends PI_READY `m` times to a line that has the garbage `g` on it. The first loop of
the shell ends where only whole words are left of that, and every run ends synchronized. -/
structure Synchronizes (fuel m : ℕ) (g : List UInt8) : Prop where
  aligned : ∃ i n, (awaitReady fuel).Runs i [] (.done ()) ∧ g ++ readies m = i ++ readies n
  ends : Ends Link.Step Synchronized ⟨synchronize fuel, serverSynchronize m, [], g⟩

/-- Behind `k` bytes of garbage a read gives PI_READY. -/
def ReadyAt (g : List UInt8) (k : ℕ) : Prop :=
  (g.drop k ++ wordBytes ShellOp.piReady).take 4 = wordBytes ShellOp.piReady

instance (g : List UInt8) (k : ℕ) : Decidable (ReadyAt g k) := inferInstanceAs (Decidable (_ = _))

/-- No read of the first loop gives PI_READY before the garbage is used up, or only whole words of
PI_READY are left of it. -/
def Quiet (g : List UInt8) : Prop :=
  ∃ j, (∀ i < j, ¬ReadyAt g (5*i)) ∧ ∃ r, g.drop (5*j) = readies r

/-- The first loop goes through `j` rounds on this line. -/
def Skips (line : List UInt8) (j : ℕ) : Prop :=
  5*j ≤ line.length ∧ ∀ i < j, (line.drop (5*i)).take 4 ≠ wordBytes ShellOp.piReady

section Runs
variable {fuel j n m : ℕ} {line i o : List UInt8} {w : Word}

@[simp] lemma readies_zero : readies 0 = [] := rfl

@[simp] lemma readies_succ (m : ℕ) : readies (m+1) = wordBytes ShellOp.piReady ++ readies m := rfl

@[simp] lemma readies_length (m : ℕ) : (readies m).length = 4*m := by
  induction m with
  | zero => rfl
  | succ m ih => rw [readies_succ, List.length_append, ih, wordBytes_length]; omega

lemma readies_add (m n : ℕ) : readies (m+n) = readies m ++ readies n := by
  rw [readies, List.replicate_add, List.flatten_append]
  rfl

/-- A round that does not find PI_READY takes five bytes. -/
lemma awaitReady_round (hlen : line.length = 5)
    (h : line.take 4 ≠ wordBytes ShellOp.piReady) :
    (awaitReady (fuel+1)).Runs line [] (awaitReady fuel) := by
  obtain ⟨w,hw⟩ := exists_wordBytes (show (line.take 4).length = 4 by simp [hlen])
  obtain ⟨b,hb⟩ := List.length_eq_one_iff.mp (show (line.drop 4).length = 1 by simp [hlen])
  have hne : w ≠ ShellOp.piReady := by
    rintro rfl
    exact h hw.symm
  have hline : line = wordBytes w ++ ([b] ++ []) := by
    rw [List.append_nil, ← hb, hw, List.take_append_drop]
  rw [hline, awaitReady]
  apply (getUint32_runs w).seq_recv
  rw [if_neg hne]
  exact (getUint8_runs b).seq_recv (.refl _)

lemma awaitReady_skips (h : Skips line j) :
    (awaitReady (fuel+j)).Runs (line.take (5*j)) [] (awaitReady fuel) := by
  induction j generalizing line with
  | zero => exact .refl _
  | succ j ih =>
    obtain ⟨hlen,hskip⟩ := h
    have hfirst : (awaitReady (fuel+j+1)).Runs (line.take 5) [] (awaitReady (fuel+j)) := by
      refine awaitReady_round (by simp; omega) ?_
      have hzero := hskip 0 (by omega)
      rwa [List.take_take]
    have hrest : Skips (line.drop 5) j := by
      refine ⟨by simp; omega, fun i hi => ?_⟩
      rw [List.drop_drop]
      have hnext := hskip (i+1) (by omega)
      rwa [Nat.mul_add, Nat.add_comm] at hnext
    have htake : line.take (5*(j+1)) = line.take 5 ++ (line.drop 5).take (5*j) := by
      rw [Nat.mul_add, Nat.add_comm, List.take_add]
    rw [htake]
    exact hfirst.trans (ih hrest)

lemma awaitReady_ready : (awaitReady (fuel+1)).Runs (wordBytes ShellOp.piReady) [] (.done ()) := by
  rw [awaitReady]
  exact (getUint32_runs _).bind _

lemma drainReady_skips (n : ℕ) :
    (drainReady (fuel+n)).Runs (readies n) [] (drainReady fuel) := by
  induction n with
  | zero => exact .refl _
  | succ n ih =>
    rw [readies_succ, ← Nat.add_assoc, drainReady]
    apply (getUint32_runs _).seq_recv
    rw [if_pos rfl]
    exact ih

lemma drainReady_ends (hw : w ≠ ShellOp.piReady) :
    (drainReady (fuel+1)).Runs (wordBytes w) [] (.done w) := by
  have hread := (getUint32_runs w).bind fun op =>
    if op = ShellOp.piReady then drainReady fuel else pure op
  rwa [Proc.done_bind, if_neg hw] at hread

lemma waitForOp_runs (m : ℕ) : (waitForOp m).Runs [] (readies m) (.done ()) := by
  induction m with
  | zero => exact .refl _
  | succ m ih => exact (bootPut32_runs _).seq_send ih

end Runs

section Inversion
variable {fuel j n m : ℕ} {line rest i o : List UInt8} {w : Word}

lemma Skips.append (h : Skips line j) (rest : List UInt8) : Skips (line ++ rest) j := by
  obtain ⟨hlen,hskip⟩ := h
  refine ⟨by simp; omega, fun i hi => ?_⟩
  rw [List.drop_append_of_le_length (by omega), List.take_append_of_le_length (by simp; omega)]
  exact hskip i hi

lemma Skips.cons (hlen : line.length = 5) (h : line.take 4 ≠ wordBytes ShellOp.piReady)
    (hrest : Skips rest j) : Skips (line ++ rest) (j+1) := by
  refine ⟨by have := hrest.1; simp [hlen]; omega, fun i hi => ?_⟩
  cases i with
  | zero =>
    rw [Nat.mul_zero, List.drop_zero, List.take_append_of_le_length (by omega)]
    exact h
  | succ i =>
    have hdrop : (line ++ rest).drop (5*(i+1)) = rest.drop (5*i) := by
      rw [Nat.mul_add, Nat.mul_one, Nat.add_comm, ← List.drop_drop, ← hlen, List.drop_left]
    rw [hdrop]
    exact hrest.2 i (by omega)

/-- What the first loop has read when it ends. -/
lemma awaitReady_inv (h : (awaitReady fuel).Runs i o (.done ())) :
    ∃ skipped j, skipped.length = 5*j ∧ Skips skipped j ∧
      i = skipped ++ wordBytes ShellOp.piReady ∧ o = [] := by
  induction fuel generalizing i o with
  | zero => cases h
  | succ fuel ih =>
    obtain ⟨w,i₁,o₁,i₂,o₂,h₁,h₂,rfl,rfl⟩ := Proc.Runs.bind_inv h
    obtain ⟨rfl,rfl⟩ := getUint32_inv h₁
    by_cases hw : w = ShellOp.piReady
    · subst hw
      rw [if_pos rfl] at h₂
      obtain ⟨-,rfl,rfl⟩ := Proc.Runs.done_inv h₂
      exact ⟨[], 0, rfl, ⟨by simp, by simp⟩, by simp, rfl⟩
    · rw [if_neg hw] at h₂
      obtain ⟨b,i₃,rfl,h₃⟩ := Proc.Runs.get_inv h₂
      obtain ⟨skipped,j,hlen,hskip,rfl,rfl⟩ := ih h₃
      have hne : (wordBytes w ++ [b]).take 4 ≠ wordBytes ShellOp.piReady :=
        fun he => hw (wordBytes_inj he)
      exact ⟨(wordBytes w ++ [b]) ++ skipped, j+1, by simp [hlen]; omega,
        .cons (by simp) hne hskip, by simp, rfl⟩

lemma drainReady_inv (h : (drainReady fuel).Runs i o (.done w)) :
    ∃ n, i = readies n ++ wordBytes w ∧ o = [] := by
  induction fuel generalizing i o with
  | zero => cases h
  | succ fuel ih =>
    obtain ⟨v,i₁,o₁,i₂,o₂,h₁,h₂,rfl,rfl⟩ := Proc.Runs.bind_inv h
    obtain ⟨rfl,rfl⟩ := getUint32_inv h₁
    by_cases hv : v = ShellOp.piReady
    · rw [if_pos hv] at h₂
      obtain ⟨n,rfl,rfl⟩ := ih h₂
      exact ⟨n+1, by simp [hv], rfl⟩
    · rw [if_neg hv] at h₂
      obtain ⟨rfl,rfl,rfl⟩ := Proc.Runs.done_inv h₂
      exact ⟨0, by simp, rfl⟩

lemma synchronize_inv (h : (synchronize fuel).Runs i o (.done ())) :
    ∃ skipped j n, skipped.length = 5*j ∧ Skips skipped j ∧
      i = skipped ++ readies (n+1) ++ wordBytes ShellOp.ack := by
  obtain ⟨_,i₁,o₁,i₂,o₂,h₁,h₂,rfl,rfl⟩ := Proc.Runs.bind_inv h
  obtain ⟨_,i₃,o₃,i₄,o₄,h₃,h₄,rfl,rfl⟩ := Proc.Runs.bind_inv h₂
  obtain ⟨w,i₅,o₅,i₆,o₆,h₅,h₆,rfl,rfl⟩ := Proc.Runs.bind_inv h₄
  obtain ⟨skipped,j,hlen,hskip,rfl,rfl⟩ := awaitReady_inv h₁
  obtain ⟨rfl,rfl⟩ := putUint32_inv h₃
  obtain ⟨n,rfl,rfl⟩ := drainReady_inv h₅
  by_cases hw : w = ShellOp.ack
  · rw [if_neg (not_not.mpr hw)] at h₆
    obtain ⟨-,rfl,rfl⟩ := Proc.Runs.done_inv h₆
    exact ⟨skipped, j, n, hlen, hskip, by simp [hw]⟩
  · rw [if_pos hw] at h₆
    cases h₆

lemma waitForOp_inv (h : (waitForOp m).Runs i o (.done ())) : o = readies m := by
  induction m generalizing i o with
  | zero => exact (Proc.Runs.done_inv h).2.2
  | succ m ih =>
    obtain ⟨_,i₁,o₁,i₂,o₂,h₁,h₂,rfl,rfl⟩ := Proc.Runs.bind_inv h
    obtain ⟨rfl,rfl⟩ := putUint32_inv h₁
    rw [ih h₂]
    rfl

lemma serverSynchronize_inv (h : (serverSynchronize m).Runs i o (.done ())) :
    o = readies m ++ wordBytes ShellOp.ack := by
  obtain ⟨_,i₁,o₁,i₂,o₂,h₁,h₂,rfl,rfl⟩ := Proc.Runs.bind_inv h
  obtain ⟨w,i₃,o₃,i₄,o₄,h₃,h₄,rfl,rfl⟩ := Proc.Runs.bind_inv h₂
  obtain ⟨rfl,rfl⟩ := getUint32_inv h₃
  rw [waitForOp_inv h₁]
  by_cases hw : w = ShellOp.unixReady
  · rw [if_neg (not_not.mpr hw)] at h₄
    obtain ⟨rfl,rfl⟩ := putUint32_inv h₄
    rfl
  · rw [if_pos hw] at h₄
    obtain ⟨_,_,_,_,_,_,h₅,_,_⟩ := Proc.Runs.bind_inv h₄
    cases h₅

end Inversion

section Garbage
variable {g : List UInt8} {m j k : ℕ}

lemma readyAt_iff (hk : k ≤ g.length) (hm : 0 < m) :
    ((g ++ readies m).drop k).take 4 = wordBytes ShellOp.piReady ↔ ReadyAt g k := by
  obtain ⟨m,rfl⟩ : ∃ n, m = n+1 := ⟨m-1, by omega⟩
  rw [List.drop_append_of_le_length hk, readies_succ, ← List.append_assoc,
    List.take_append_of_le_length (by simp)]
  rfl

/-- The end of the garbage reads as PI_READY. -/
lemma lt_of_not_readyAt (h : ¬ReadyAt g k) : k < g.length := by
  by_contra hk
  refine h ?_
  rw [ReadyAt, List.drop_eq_nil_of_le (Nat.not_lt.mp hk)]
  rfl

lemma unaligned : ∀ k ≤ 16, k % 4 ≠ 0 →
    ((readies 5).drop k).take 4 ≠ wordBytes ShellOp.piReady := by decide

lemma drop_readies (m n : ℕ) : (readies (m+n)).drop (4*m) = readies n := by
  rw [readies_add]
  exact List.drop_left' (readies_length m)

lemma quiet_nil : Quiet [] := ⟨0, fun _ hi => absurd hi (Nat.not_lt_zero _), 0, rfl⟩

/-- At most four more rounds bring the loop from the end of the garbage to a word boundary. -/
lemma exists_skips (hm : g = [] ∧ 0 < m ∨ 5 ≤ m) (h : Quiet g) :
    ∃ j n, Skips (g ++ readies m) j ∧ (g ++ readies m).drop (5*j) = readies (n+1) := by
  rcases hm with ⟨rfl,hm⟩ | hm
  · obtain ⟨r,rfl⟩ := Nat.exists_eq_add_of_le' hm
    exact ⟨0, r, ⟨Nat.zero_le _, nofun⟩, rfl⟩
  obtain ⟨j,hnot,r,hr⟩ := h
  have hgarbage : ∀ i < j, ((g ++ readies m).drop (5*i)).take 4 ≠ wordBytes ShellOp.piReady := by
    intro i hi
    rw [ne_eq, readyAt_iff (lt_of_not_readyAt (hnot i hi)).le (by omega)]
    exact hnot i hi
  by_cases hj : 5*j ≤ g.length
  · refine ⟨j, r+m-1, ⟨by simp; omega, hgarbage⟩, ?_⟩
    rw [List.drop_append_of_le_length hj, hr, ← readies_add]
    congr 1
    omega
  · -- the last round has gone `d` bytes into the first word
    have hlast : 5*(j-1) < g.length := lt_of_not_readyAt (hnot (j-1) (by omega))
    obtain ⟨d,hd⟩ : ∃ d, 5*j = g.length + d := ⟨5*j-g.length, by omega⟩
    refine ⟨j+(4-d), m+d-6, ⟨by simp; omega, fun i hi => ?_⟩, ?_⟩
    · by_cases hij : i < j
      · exact hgarbage i hij
      · have hk : 5*i = g.length + (d+5*(i-j)) := by omega
        have hsplit : readies m = readies 5 ++ readies (m-5) := by
          rw [← readies_add]
          congr 1
          omega
        rw [hk, ← List.drop_drop, List.drop_left, hsplit,
          List.drop_append_of_le_length (by simp; omega),
          List.take_append_of_le_length (by simp; omega)]
        exact unaligned _ (by omega) (by omega)
    · have hk : 5*(j+(4-d)) = g.length + 4*(5-d) := by omega
      have hsum : m = (5-d) + (m+d-6+1) := by omega
      rw [hk, ← List.drop_drop, List.drop_left]
      conv_lhs => rw [hsum]
      exact drop_readies _ _

lemma quiet_of_skips (hm : 5 ≤ m) {n : ℕ} (hskip : Skips (g ++ readies m) j)
    (hrest : (g ++ readies m).drop (5*j) = readies n) : Quiet g := by
  have hnot : ∀ i < j, 5*i ≤ g.length → ¬ReadyAt g (5*i) := by
    intro i hi hk
    rw [← readyAt_iff hk (show 0 < m by omega)]
    exact hskip.2 i hi
  by_cases hj : 5*j ≤ g.length
  · refine ⟨j, fun i hi => hnot i hi (by omega), n-m, ?_⟩
    have hlen := congrArg List.length hrest
    rw [List.drop_append_of_le_length hj] at hrest
    simp only [List.length_drop, List.length_append, readies_length] at hlen
    have hsum : readies n = readies (n-m) ++ readies m := by
      rw [← readies_add]
      congr 1
      omega
    rw [hsum] at hrest
    exact List.append_cancel_right hrest
  · exact ⟨(g.length+4)/5, fun i hi => hnot i (by omega) (by omega), 0,
      List.drop_eq_nil_of_le (by omega)⟩

end Garbage

section Sync
variable {fuel m j n : ℕ} {g : List UInt8}

/-- The shell's first loop on a line that it can skip through. -/
lemma awaitReady_runs (hskip : Skips (g ++ readies m) j) (hfuel : j < fuel) :
    (awaitReady fuel).Runs ((g ++ readies m).take (5*j) ++ wordBytes ShellOp.piReady) []
      (.done ()) := by
  obtain ⟨k,rfl⟩ : ∃ k, fuel = k+1+j := ⟨fuel-1-j, by omega⟩
  exact (awaitReady_skips hskip).trans awaitReady_ready

lemma synchronize_runs (hskip : Skips (g ++ readies m) j)
    (hrest : (g ++ readies m).drop (5*j) = readies (n+1)) (hfuel : j < fuel) (hn : n ≤ fuel) :
    (synchronize fuel).Runs (g ++ readies m) (wordBytes ShellOp.unixReady) (awaitAck (fuel-n)) := by
  have hline : g ++ readies m =
      ((g ++ readies m).take (5*j) ++ wordBytes ShellOp.piReady) ++ readies n := by
    rw [List.append_assoc, ← readies_succ, ← hrest, List.take_append_drop]
  rw [hline]
  apply (awaitReady_runs hskip hfuel).seq_recv
  apply Proc.Runs.seq_send (putUint32_runs _)
  have hdrain : (drainReady (fuel-n+n)).Runs (readies n) [] (drainReady (fuel-n)) :=
    drainReady_skips n
  rw [Nat.sub_add_cancel hn] at hdrain
  exact hdrain.bind _

lemma serverSynchronize_runs (m : ℕ) : ∃ p, (serverSynchronize m).Runs [] (readies m) p ∧
    p.Runs (wordBytes ShellOp.unixReady) (wordBytes ShellOp.ack) (.done ()) := by
  refine ⟨_, (waitForOp_runs m).bind _, ?_⟩
  apply (bootGet32_runs _).answer
  rw [if_neg (not_not.mpr rfl)]
  exact bootPut32_runs _

lemma awaitAck_runs (hfuel : 0 < fuel) :
    (awaitAck fuel).Runs (wordBytes ShellOp.ack) [] (.done ()) := by
  obtain ⟨k,rfl⟩ : ∃ k, fuel = k+1 := ⟨fuel-1, by omega⟩
  exact (drainReady_ends (by decide)).bind _

/-- One run in which the Pi first sends all its words. -/
lemma synchronizes_of_quiet (hm : g = [] ∧ 0 < m ∨ 5 ≤ m) (hfuel : g.length+m < fuel)
    (h : Quiet g) :
    Synchronizes fuel m g := by
  obtain ⟨j,n,hskip,hrest⟩ := exists_skips hm h
  have hlen := congrArg List.length hrest
  have hjlen := hskip.1
  simp only [List.length_drop, List.length_append, readies_length] at hlen hjlen
  constructor
  · refine ⟨_, n, awaitReady_runs hskip (by omega), ?_⟩
    rw [List.append_assoc, ← readies_succ, ← hrest, List.take_append_drop]
  · obtain ⟨p,hready,hack⟩ := serverSynchronize_runs m
    have hsend := Link.reaches_right hready (synchronize fuel) [] g
    have hshell := Link.answers_left
      (synchronize_runs hskip hrest (by omega) (by omega : n ≤ fuel)) p
    have hserver := Link.answers_right hack (awaitAck (fuel-n))
    have hend := Link.answers_left (awaitAck_runs (by omega : 0 < fuel-n)) (.done () : Serial Unit)
    apply Ends.of_run Link.step_diamond (((hsend.trans hshell).trans hserver).trans hend)
    · exact Link.final_of_idle (Proc.idle_done _) (Proc.idle_done _)
    · exact ⟨rfl, rfl, rfl, rfl⟩

/-- What the shell has read when the two sides are synchronized. -/
lemma quiet_of_synchronizes (hm : g = [] ∧ 0 < m ∨ 5 ≤ m) (h : Synchronizes fuel m g) :
    Quiet g := by
  rcases hm with ⟨rfl,-⟩ | hm
  · exact quiet_nil
  obtain ⟨t,ht,hshell,hpi,-,hread⟩ := h.ends.exists_run
  obtain ⟨i₁,o₁,i₂,o₂,h₁,h₂,-,hleft⟩ := Link.runs_of_reaches ht
  rw [hshell] at h₁
  rw [hpi] at h₂
  obtain ⟨skipped,j,n,hlen,hskip,rfl⟩ := synchronize_inv h₁
  obtain rfl := serverSynchronize_inv h₂
  rw [hread, List.append_nil, ← List.append_assoc] at hleft
  have hline : g ++ readies m = skipped ++ readies (n+1) := List.append_cancel_right hleft
  refine quiet_of_skips hm (j := j) (n := n+1) ?_ ?_
  · rw [hline]
    exact hskip.append _
  · rw [hline]
    exact List.drop_left' hlen

/-- Garbage on the line does no harm exactly if none of it looks like PI_READY to the shell's
reads, alone or together with the beginning of the first real word. Five words are enough for the
shell to get in step with them, and one is enough on an empty line. -/
theorem synchronizes_iff (hm : g = [] ∧ 0 < m ∨ 5 ≤ m) (hfuel : g.length+m < fuel) :
    Synchronizes fuel m g ↔ Quiet g :=
  ⟨quiet_of_synchronizes hm, synchronizes_of_quiet hm hfuel⟩

/-- Two bytes of garbage. -/
theorem synchronizes_iff_two : Synchronizes 8 5 [7,7] := by
  refine (synchronizes_iff (.inr le_rfl) (by decide)).mpr ⟨1, ?_, 0, rfl⟩
  decide

/-- The last three bytes of garbage and the first one of PI_READY look like PI_READY. -/
theorem cut_word_panics : ¬Synchronizes 9 5 [0x00,0xFF,0x00] := by
  intro h
  obtain ⟨j,hnot,r,hr⟩ := quiet_of_synchronizes (.inr le_rfl) h
  cases j with
  | zero =>
    have hlen := congrArg List.length hr
    simp at hlen
    omega
  | succ j => exact hnot 0 (by omega) (by decide)

end Sync
end DistributedPis
