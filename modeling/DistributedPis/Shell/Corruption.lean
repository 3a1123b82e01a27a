import DistributedPis.Libpi.CrcBits
import DistributedPis.Shell.SimpleBoot

/-! What the checksum of the bootloader is good for: a program that a burst of noise changes on its
way is noticed on both ends of the line, and is not started. -/
namespace DistributedPis
open Library

/-- The laptop has answered all requests, and `code` is what arrives at the Pi for the program. -/
def inFlight (fuel : ℕ) (prog code : List UInt8) (s : PiMem) :
    Link UInt8 Unit (PiMem × Option Word) :=
  ⟨getOp fuel >>= ckEq32 BootOp.bootSuccess,
    recvCode armbase (BitVec.ofNat 32 prog.length) (crc32 prog) s,
    wordBytes BootOp.putCode ++ code, []⟩

/-- What the Pi answers to a program with another checksum. -/
def mismatch : List UInt8 :=
  wordBytes BootOp.printString ++ (wordBytes 17 ++ chars "Checksum mismatch") ++
    wordBytes BootOp.bootError

/-- Both ends have given up since `start`: the Pi has read all that was on the line and answered by
the mismatch text and the error, and that is what the laptop has read. -/
structure Refused (start c : Link UInt8 Unit (PiMem × Option Word)) : Prop where
  laptop : c.left = .fail
  pi : ∃ s, c.right = .done (s, none)
  read : c.toRight = [] ∧ c.toLeft = []
  sent : start.right.Runs start.toRight mismatch c.right
  got : start.left.Runs mismatch [] c.left

section Refuse
variable {fuel : ℕ} {nbytes crc : Word} {code : List UInt8}

theorem recvCode_refuses (addr : Word) (hlen : code.length = nbytes.toNat) (s : PiMem)
    (hcrc : crc32 code ≠ crc) :
    (recvCode addr nbytes crc s).Runs (wordBytes BootOp.putCode ++ code) mismatch
      (.done (s.copied addr 0 code, none)) := by
  have hbytes : (s.copied addr 0 code).bytes addr nbytes.toNat = code := by
    rw [← hlen]
    exact copied_bytes addr code s (hlen ▸ nbytes.isLt.le)
  have hcopy := copyCode_runs addr code 0 s
  rw [hlen] at hcopy
  apply (bootGet32_runs _).seq_recv
  rw [if_neg (not_not_intro rfl)]
  apply hcopy.answer
  rw [hbytes, if_pos hcrc]
  have herr : (bootErr BootOp.bootError "Checksum mismatch").Runs [] mismatch (.done ()) :=
    (bootPutk_runs _).seq_send (bootPut32_runs _)
  exact herr.bind _

theorem getOp_mismatch (h : 2 ≤ fuel) :
    (getOp fuel >>= ckEq32 BootOp.bootSuccess).Runs mismatch [] .fail := by
  obtain ⟨fuel,rfl⟩ := Nat.exists_eq_add_of_le' h
  have hprint := getOp_print (fuel+1) 104
    (show (chars "Checksum mismatc").length < 511 by decide)
  have hop := hprint.trans
    (getOp_runs fuel (show BootOp.bootError ≠ BootOp.printString by decide))
  exact hop.answer (.refl _)

end Refuse

section Noise
variable {l : Loader} {prog code : List UInt8} {fuel : ℕ}

theorem within_bufBits_length (h : Within 32 (bufBits prog) (bufBits code)) :
    prog.length = code.length := by
  obtain ⟨front,x,y,back,hlen,-,hprog,hcode⟩ := h
  have hbits : (bufBits prog).length = (bufBits code).length := by
    rw [hprog, hcode]
    simp [hlen]
  have height (buf : List UInt8) : (bufBits buf).length = 8*buf.length := by
    induction buf with
    | nil => rfl
    | cons b buf ih =>
      rw [bufBits, List.flatMap_cons, List.length_append, byteBits_length, List.length_cons]
      exact (congrArg (8 + ·) ih).trans (by omega)
  rw [height, height] at hbits
  omega

/-- After an odd number of requests the program itself is on its way. -/
theorem inFlight_reached (h : ¬l.collides armbase (BitVec.ofNat 32 prog.length)) (k fuel : ℕ)
    (s : PiMem) :
    Link.Reaches (.start (simpleBoot (fuel+2+k) prog) (getCode l (2*k+1) s))
      (inFlight (fuel+2+k) prog prog s) := by
  have hdrain := (drainExtra_pairs k (fuel+2)).trans (drainExtra_runs (fuel+1)
    (show BootOp.getCode ≠ BootOp.printString by decide) (by decide))
  have hsend := (hdrain.bind (sendCode (fuel+2+k) prog)).trans (sendCode_runs (fuel+2+k) prog)
  rw [List.append_assoc] at hsend
  exact (handshake_begins h (by omega) (2*k) s).trans (Link.answers_left hsend _)

theorem inFlight_refused (hlen : prog.length < 2^32) (hcode : prog.length = code.length)
    (hcrc : crc32 code ≠ crc32 prog) (hfuel : 2 ≤ fuel) (s : PiMem) :
    Ends Link.Step (Refused (inFlight fuel prog code s)) (inFlight fuel prog code s) := by
  have hnat : code.length = (BitVec.ofNat 32 prog.length).toNat := by
    rw [BitVec.toNat_ofNat, Nat.mod_eq_of_lt hlen, hcode]
  have hpi := recvCode_refuses armbase hnat s hcrc
  have hrun := (Link.answers_right hpi _).trans (Link.answers_left (getOp_mismatch hfuel) _)
  apply Ends.of_run Link.step_diamond hrun
  · exact Link.final_of_idle Proc.Starved.fail.idle (Proc.idle_done _)
  · exact ⟨rfl, ⟨_,rfl⟩, ⟨rfl,rfl⟩, hpi, getOp_mismatch hfuel⟩

theorem inFlight_booted (hlen : prog.length < 2^32) (hfuel : 2 ≤ fuel) (s : PiMem) :
    Ends Link.Step (Booted prog) (inFlight fuel prog prog s) := by
  have hnat : prog.length = (BitVec.ofNat 32 prog.length).toNat := by
    rw [BitVec.toNat_ofNat, Nat.mod_eq_of_lt hlen]
  obtain ⟨o,⟨s',ret⟩,hcode,rfl,hsuccess⟩ := recvCode_runs armbase hnat (crc32 prog) s
  obtain ⟨rfl,rfl⟩ := hsuccess rfl
  have hrun := (Link.answers_right hcode _).trans (Link.answers_left (getOp_success hfuel) _)
  apply Ends.of_run Link.step_diamond hrun
  · exact Link.final_of_idle (Proc.idle_done _) (Proc.idle_done _)
  · exact ⟨rfl, ⟨_,rfl,copied_bytes armbase prog s hlen.le⟩, rfl, rfl⟩

end Noise

/-- A burst of at most 32 bits in the program is noticed: on every schedule the Pi answers by the
mismatch and both ends give up if it changed anything, and the program is booted if it did not. -/
theorem burst_refused {l : Loader} {prog code : List UInt8}
    (h : ¬l.collides armbase (BitVec.ofNat 32 prog.length)) (hlen : prog.length < 2^32)
    (hburst : Within 32 (bufBits prog) (bufBits code)) (k fuel : ℕ) (s : PiMem) :
    Link.Reaches (.start (simpleBoot (fuel+2+k) prog) (getCode l (2*k+1) s))
      (inFlight (fuel+2+k) prog prog s) ∧
    Ends Link.Step (fun c => if code = prog then Booted prog c else
        Refused (inFlight (fuel+2+k) prog code s) c) (inFlight (fuel+2+k) prog code s) := by
  refine ⟨inFlight_reached h k fuel s, ?_⟩
  by_cases heq : code = prog
  · subst heq
    simp only [if_true]
    exact inFlight_booted hlen (by omega) s
  · simp only [if_neg heq]
    apply inFlight_refused hlen (within_bufBits_length hburst) ?_ (by omega)
    exact fun hcrc => heq ((crc32_eq_iff hburst).mp hcrc.symm).symm

/-- One flipped bit. -/
theorem burst_refused_bit :
    Link.Reaches (.start (simpleBoot 2 [1,2,3]) (getCode someLoader 1 ⟨fun _ => 0,[]⟩))
      (inFlight 2 [1,2,3] [1,2,3] ⟨fun _ => 0,[]⟩) ∧
    Ends Link.Step (fun c => if [1,6,3] = [(1 : UInt8),2,3] then Booted [1,2,3] c else
        Refused (inFlight 2 [1,2,3] [1,6,3] ⟨fun _ => 0,[]⟩) c)
      (inFlight 2 [1,2,3] [1,6,3] ⟨fun _ => 0,[]⟩) :=
  burst_refused (l := someLoader) (by decide) (by decide)
    ⟨(bufBits [1,2,3]).take 10, [false], [true], (bufBits [1,2,3]).drop 11,
      by decide, by decide, by decide, by decide⟩ 0 0 _

end DistributedPis
