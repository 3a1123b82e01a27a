import DistributedPis.Shell.GetCode

/-! The laptop's side of the bootloader (`simple-boot.c`) against the Pi's. The loop that drains
extra requests takes two words in each round, the request and one more, so it meets the answer of
the Pi only if the number of requests is odd. -/
namespace DistributedPis
open Library

/-- The first word of a message, after any strings to print. A loop gives up without `fuel`. -/
def getOp : (fuel : ℕ) → Serial Word
  | 0 => .fail
  | fuel+1 => do
    let op ← getUint32
    if op ≠ BootOp.printString then pure op
    else
      let nbytes ← getUint32
      if nbytes < 512 then
        let _ ← Proc.recvN (nbytes-1).toNat
        let _ ← getUint8
        getOp fuel
      else .fail

/-- The program dies on a mismatch. -/
def ckEq32 (exp got : Word) : Serial Unit := if exp = got then pure () else .fail

/-- Step 0 of `simple_boot`. -/
def drainInitial : (fuel : ℕ) → Serial Unit
  | 0 => .fail
  | fuel+1 => do
    let op ← getOp (fuel+1)
    if op ≠ BootOp.getProgInfo then
      let _ ← getUint8
      drainInitial fuel
    else pure ()

/-- Step 2 of `simple_boot`. -/
def drainExtra : (fuel : ℕ) → Serial Word
  | 0 => .fail
  | fuel+1 => do
    let op ← getOp (fuel+1)
    if op = BootOp.getProgInfo then
      let _ ← getUint32
      drainExtra fuel
    else pure op

/-- Steps 3 to 5 of `simple_boot`. -/
def sendCode (fuel : ℕ) (buf : List UInt8) (op : Word) : Serial Unit := do
  ckEq32 BootOp.getCode op
  let cksum ← getUint32
  ckEq32 (crc32 buf) cksum
  putUint32 BootOp.putCode
  Proc.sendAll buf
  let op ← getOp fuel
  ckEq32 BootOp.bootSuccess op

def simpleBoot (fuel : ℕ) (buf : List UInt8) : Serial Unit := do
  drainInitial fuel
  putUint32 BootOp.putProgInfo
  putUint32 armbase
  putUint32 (BitVec.ofNat 32 buf.length)
  putUint32 (crc32 buf)
  let op ← drainExtra fuel
  sendCode fuel buf op

section Spec
variable {fuel k : ℕ} {op : Word} {buf : List UInt8}

theorem getOp_runs (fuel : ℕ) (h : op ≠ BootOp.printString) :
    (getOp (fuel+1)).Runs (wordBytes op) [] (.done op) := by
  apply (getUint32_runs op).answer
  rw [if_pos h]
  exact .refl _

/-- A string of the Pi is printed and skipped. -/
theorem getOp_print (fuel : ℕ) {msg : List UInt8} (c : UInt8) (hlen : msg.length < 511) :
    (getOp (fuel+1)).Runs (wordBytes BootOp.printString ++
      (wordBytes (BitVec.ofNat 32 (msg.length+1)) ++ (msg ++ [c]))) [] (getOp fuel) := by
  have hone : (BitVec.ofNat 32 (msg.length+1)).toNat = msg.length+1 := by
    rw [BitVec.toNat_ofNat]
    omega
  have hmsg : (BitVec.ofNat 32 (msg.length+1) - 1).toNat = msg.length := by
    rw [BitVec.toNat_sub, hone]
    simp
    omega
  apply (getUint32_runs _).seq_recv
  rw [if_neg (not_not_intro rfl)]
  apply (getUint32_runs _).seq_recv
  rw [if_pos (by rw [BitVec.lt_def, hone]; simp; omega), hmsg]
  apply (Proc.Runs.recvN msg).seq_recv
  exact (getUint8_runs c).bind _

theorem drainInitial_runs (fuel : ℕ) :
    (drainInitial (fuel+1)).Runs (wordBytes BootOp.getProgInfo) [] (.done ()) := by
  exact (getOp_runs fuel (by decide)).answer (.refl _)

theorem drainExtra_runs (fuel : ℕ) (hop : op ≠ BootOp.printString) (h : op ≠ BootOp.getProgInfo) :
    (drainExtra (fuel+1)).Runs (wordBytes op) [] (.done op) := by
  apply (getOp_runs fuel hop).answer
  rw [if_neg h]
  exact .refl _

/-- A round takes a request and the word after it. -/
theorem drainExtra_round (fuel : ℕ) (w : Word) :
    (drainExtra (fuel+1)).Runs (wordBytes BootOp.getProgInfo ++ wordBytes w) []
      (drainExtra fuel) := by
  apply (getOp_runs fuel (by decide)).seq_recv
  rw [if_pos rfl]
  exact (getUint32_runs w).bind _

theorem drainExtra_pairs (k fuel : ℕ) :
    (drainExtra (fuel+k)).Runs (requests (2*k)) [] (drainExtra fuel) := by
  induction k with
  | zero => exact .refl _
  | succ k ih => exact (drainExtra_round (fuel+k) BootOp.getProgInfo).trans ih

/-- The word after the requests is the first one of an answer. -/
theorem sendCode_runs (fuel : ℕ) (buf : List UInt8) :
    (sendCode fuel buf BootOp.getCode).Runs (wordBytes (crc32 buf))
      (wordBytes BootOp.putCode ++ buf) (getOp fuel >>= ckEq32 BootOp.bootSuccess) := by
  rw [sendCode, ckEq32, if_pos rfl]
  apply (getUint32_runs (crc32 buf)).answer
  rw [ckEq32, if_pos rfl]
  apply (putUint32_runs _).seq_send
  exact (Proc.Runs.sendAll buf).bind _

theorem getOp_success (h : 2 ≤ fuel) :
    (getOp fuel >>= ckEq32 BootOp.bootSuccess).Runs success [] (.done ()) := by
  obtain ⟨fuel,rfl⟩ := Nat.exists_eq_add_of_le' h
  have hprint := getOp_print (fuel+1) 33
    (show (chars "Rishi Verma: success: Received the program with UART").length < 511 by decide)
  have hop := hprint.trans
    (getOp_runs fuel (show BootOp.bootSuccess ≠ BootOp.printString by decide))
  exact hop.answer (.refl _)

/-- The first request is answered with the data about the program. -/
theorem simpleBoot_runs (h : 0 < fuel) (buf : List UInt8) :
    (simpleBoot fuel buf).Runs (wordBytes BootOp.getProgInfo)
      (progInfo armbase (BitVec.ofNat 32 buf.length) (crc32 buf))
      (drainExtra fuel >>= sendCode fuel buf) := by
  obtain ⟨fuel,rfl⟩ := Nat.exists_eq_add_of_le' h
  apply (drainInitial_runs fuel).answer
  apply (putUint32_runs _).seq_send
  apply (putUint32_runs _).seq_send
  apply (putUint32_runs _).seq_send
  exact (putUint32_runs _).bind _

end Spec

/-- Both programs end well, and the program is in memory. -/
structure Booted (prog : List UInt8) (c : Link UInt8 Unit (PiMem × Option Word)) : Prop where
  laptop : c.left = .done ()
  pi : ∃ s, c.right = .done (s, some armbase) ∧ s.bytes armbase prog.length = prog
  read : c.toRight = [] ∧ c.toLeft = []

section Handshake
variable {l : Loader} {prog : List UInt8} {m fuel : ℕ} {s : PiMem}

/-- What both programs do up to the drain loop, whatever the number of requests. -/
theorem handshake_begins (h : ¬l.collides armbase (BitVec.ofNat 32 prog.length))
    (hfuel : 0 < fuel) (m : ℕ) (s : PiMem) :
    Link.Reaches (.start (simpleBoot fuel prog) (getCode l (m+1) s))
      ⟨drainExtra fuel >>= sendCode fuel prog,
        recvCode armbase (BitVec.ofNat 32 prog.length) (crc32 prog) s, [],
        requests m ++ (wordBytes BootOp.getCode ++ wordBytes (crc32 prog))⟩ := by
  have hwait := (waitForData_runs (m+1)).bind fun _ => recvProgInfo l s
  have hasked := Link.reaches_right hwait (simpleBoot fuel prog) [] []
  have hinfo := Link.reaches_left (simpleBoot_runs hfuel prog) (recvProgInfo l s) [] (requests m)
  have hanswer := Link.reaches_right (recvProgInfo_runs h (crc32 prog) s)
    (drainExtra fuel >>= sendCode fuel prog) [] (requests m)
  rw [List.append_nil] at hanswer
  exact (hasked.trans hinfo).trans hanswer

/-- A word that is no answer leaves the laptop without the rest of the message. -/
theorem getOp_starves (fuel : ℕ) :
    ∃ p, (getOp (fuel+1)).Runs (wordBytes BootOp.printString) [] p ∧ p.Starved := by
  refine ⟨_, (getUint32_runs _).bind _, ?_⟩
  rw [Proc.done_bind, if_neg (not_not_intro rfl)]
  exact getUint32_starved _

theorem drainExtra_starves (fuel : ℕ) :
    ∃ p, (drainExtra (fuel+1)).Runs (wordBytes BootOp.getProgInfo) [] p ∧ p.Starved := by
  refine ⟨_, (getOp_runs fuel (by decide)).bind _, ?_⟩
  rw [Proc.done_bind, if_pos rfl]
  exact getUint32_starved _

theorem sendCode_starves (fuel : ℕ) (buf : List UInt8) (op : Word) :
    (sendCode fuel buf op).Starved := by
  unfold sendCode ckEq32
  split
  · exact getUint32_starved _
  · exact .fail

/-- After the answer has been taken for a request, the checksum is all that is left to read. -/
theorem drain_starves (fuel fuel' : ℕ) (buf : List UInt8) (crc : Word) :
    ∃ p, (drainExtra (fuel+1) >>= sendCode fuel' buf).Runs (wordBytes crc) [] p ∧
      p.Starved := by
  by_cases hprint : crc = BootOp.printString
  · obtain ⟨p,hp,hs⟩ := getOp_starves fuel
    rw [hprint]
    exact ⟨_, (hp.bind _).bind _, (hs.bind _).bind _⟩
  by_cases hinfo : crc = BootOp.getProgInfo
  · obtain ⟨p,hp,hs⟩ := drainExtra_starves fuel
    rw [hinfo]
    exact ⟨_, hp.bind _, hs.bind _⟩
  · exact ⟨_, (drainExtra_runs fuel hprint hinfo).bind _, sendCode_starves ..⟩

/-- After an odd number of requests the drain loop ends with the answer. -/
theorem handshake_odd (h : ¬l.collides armbase (BitVec.ofNat 32 prog.length))
    (hlen : prog.length < 2^32) (k fuel : ℕ) (s : PiMem) :
    Ends Link.Step (Booted prog)
      (.start (simpleBoot (fuel+2+k) prog) (getCode l (2*k+1) s)) := by
  have hnat : prog.length = (BitVec.ofNat 32 prog.length).toNat := by
    rw [BitVec.toNat_ofNat, Nat.mod_eq_of_lt hlen]
  obtain ⟨o,⟨s',ret⟩,hcode,rfl,hsuccess⟩ := recvCode_runs armbase hnat (crc32 prog) s
  obtain ⟨rfl,rfl⟩ := hsuccess rfl
  have hdrain := (drainExtra_pairs k (fuel+2)).trans (drainExtra_runs (fuel+1)
    (show BootOp.getCode ≠ BootOp.printString by decide) (by decide))
  have hsend := (hdrain.bind (sendCode (fuel+2+k) prog)).trans (sendCode_runs (fuel+2+k) prog)
  rw [List.append_assoc] at hsend
  have hrun := (((handshake_begins h (by omega) (2*k) s).trans (Link.answers_left hsend _)).trans
    (Link.answers_right hcode _)).trans (Link.answers_left (getOp_success (by omega)) _)
  apply Ends.of_run Link.step_diamond hrun
  · exact Link.final_of_idle (Proc.idle_done _) (Proc.idle_done _)
  · refine ⟨rfl, ⟨_,rfl,?_⟩, rfl, rfl⟩
    exact copied_bytes armbase prog s hlen.le

/-- After an even number of requests the drain loop takes the answer for one of them. -/
theorem handshake_even (h : ¬l.collides armbase (BitVec.ofNat 32 prog.length))
    (k fuel : ℕ) (s : PiMem) :
    ¬Ends Link.Step (Booted prog)
      (.start (simpleBoot (fuel+2+k) prog) (getCode l (2*k+2) s)) := by
  intro hends
  obtain ⟨p,hp,hs⟩ := drain_starves fuel (fuel+2+k) prog (crc32 prog)
  have hdrain := (drainExtra_pairs k (fuel+2)).trans (drainExtra_round (fuel+1) BootOp.getCode)
  have hstarve := (hdrain.bind _).trans hp
  have hreq : requests (2*k) ++ (wordBytes BootOp.getProgInfo ++ wordBytes BootOp.getCode) ++
      wordBytes (crc32 prog) =
      requests (2*k+1) ++ (wordBytes BootOp.getCode ++ wordBytes (crc32 prog)) := by
    simp [requests, List.replicate_succ']
  rw [hreq] at hstarve
  have hrun := (handshake_begins h (by omega) (2*k+1) s).trans (Link.answers_left hstarve _)
  have hend := (hends.run hrun).final (Link.final_of_idle hs.idle (getUint32_starved _).idle)
  exact hs.ne_done _ hend.laptop

end Handshake

/-- The handshake succeeds on every schedule exactly if the number of requests is odd. -/
theorem handshake_iff {l : Loader} {prog : List UInt8} {m fuel : ℕ}
    (h : ¬l.collides armbase (BitVec.ofNat 32 prog.length)) (hlen : prog.length < 2^32)
    (hm : 1 ≤ m) (hfuel : m < fuel) (s : PiMem) :
    Ends Link.Step (Booted prog) (.start (simpleBoot fuel prog) (getCode l m s)) ↔ Odd m := by
  rcases Nat.even_or_odd' m with ⟨k,rfl | rfl⟩
  · obtain ⟨k,rfl⟩ := Nat.exists_eq_add_of_le' (show 1 ≤ k by omega)
    obtain ⟨f,rfl⟩ := Nat.exists_eq_add_of_le' (show 2+k ≤ fuel by omega)
    rw [← Nat.add_assoc]
    exact iff_of_false (handshake_even h k f s) (by simp)
  · obtain ⟨f,rfl⟩ := Nat.exists_eq_add_of_le' (show 2+k ≤ fuel by omega)
    rw [← Nat.add_assoc]
    exact iff_of_true (handshake_odd h hlen k f s) (by simp)

theorem handshake_iff_once :
    Ends Link.Step (Booted [1,2,3])
      (.start (simpleBoot 2 [1,2,3]) (getCode someLoader 1 ⟨fun _ => 0,[]⟩)) :=
  (handshake_iff (by decide) (by decide) (by decide) (by decide) _).mpr (by decide)

/-- With two requests the handshake fails. -/
theorem second_request_drained :
    ¬Ends Link.Step (Booted [1,2,3])
      (.start (simpleBoot 100 [1,2,3]) (getCode someLoader 2 ⟨fun _ => 0,[]⟩)) :=
  handshake_even (l := someLoader) (by decide) 0 98 _

end DistributedPis
