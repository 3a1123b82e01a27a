import DistributedPis.Libpi.Crc32
import DistributedPis.Shell.PutGet

/-! The bootloader of the Pi (`get-code.c`). It asks for a program until there is data, checks that
the program does not collide with the loader, copies it and compares its checksum. The check is
made on `addr + nbytes` modulo `2^32`, so a range that wraps passes it. -/
namespace DistributedPis
open Library

/-- Where a program gets linked. -/
def armbase : Word := 0x8000

namespace BootOp

def getProgInfo : Word := 0x11112222
def putProgInfo : Word := 0x33334444
def getCode : Word := 0x55556666
def putCode : Word := 0x77778888
def bootSuccess : Word := 0x9999AAAA
def bootError : Word := 0xBBBBCCCC
def printString : Word := 0xDDDDEEEE

end BootOp

/-- The memory of the Pi, and the addresses `PUT8` was called with. -/
structure PiMem where
  mem : Word → UInt8
  puts : List Word

def PiMem.PUT8 (s : PiMem) (addr : Word) (b : UInt8) : PiMem :=
  ⟨Function.update s.mem addr b, s.puts ++ [addr]⟩

/-- The `n` bytes from `addr` on. -/
def PiMem.bytes (s : PiMem) (addr : Word) (n : ℕ) : List UInt8 :=
  (List.range n).map fun i => s.mem (addr + BitVec.ofNat 32 i)

/-- The addresses of the loader itself, as the linker sets them. -/
structure Loader where
  codeStart : Word
  put32 : Word
  progEnd : Word

def Loader.collides (l : Loader) (addr nbytes : Word) : Prop :=
  addr < l.codeStart ∨ l.put32 ≤ addr+nbytes ∨ l.progEnd ≤ addr+nbytes

instance (l : Loader) (addr nbytes : Word) : Decidable (l.collides addr nbytes) :=
  inferInstanceAs (Decidable (_ ∨ _ ∨ _))

/-- The characters of a message. -/
def chars (msg : String) : List UInt8 := msg.toList.map fun c => UInt8.ofNat c.toNat

def bootPutk (msg : String) : Serial Unit := do
  bootPut32 BootOp.printString
  bootPut32 (BitVec.ofNat 32 (chars msg).length)
  Proc.sendAll (chars msg)

/-- The Pi reboots afterwards. -/
def bootErr (error : Word) (msg : String) : Serial Unit := do
  bootPutk msg
  bootPut32 error

/-- `m` is the number of timeouts before there is data. -/
def waitForData : ℕ → Serial Unit
  | 0 => pure ()
  | m+1 => do
    bootPut32 BootOp.getProgInfo
    waitForData m

/-- The copy loop from byte `i` on. -/
def copyCode (addr : Word) : (left i : ℕ) → PiMem → Serial PiMem
  | 0, _, s => pure s
  | left+1, i, s => do
    let byte ← uartGet8
    copyCode addr left (i+1) (s.PUT8 (addr + BitVec.ofNat 32 i) byte)

/-- Steps 5 to 7 of `get_code`. The result is the address of the program, if there is one. -/
def recvCode (addr nbytes crc : Word) (s : PiMem) : Serial (PiMem × Option Word) := do
  let op ← bootGet32
  if op ≠ BootOp.putCode then
    bootErr BootOp.bootError "Expected PUT_CODE"
    pure (s, none)
  else
    let s ← copyCode addr nbytes.toNat 0 s
    if crc32 (s.bytes addr nbytes.toNat) ≠ crc then
      bootErr BootOp.bootError "Checksum mismatch"
      pure (s, none)
    else
      bootPutk "Rishi Verma: success: Received the program with UART!"
      bootPut32 BootOp.bootSuccess
      pure (s, some addr)

/-- Steps 2 to 4 of `get_code`, and what follows. -/
def recvProgInfo (l : Loader) (s : PiMem) : Serial (PiMem × Option Word) := do
  let op ← bootGet32
  if op ≠ BootOp.putProgInfo then
    bootErr BootOp.bootError "Expected PUT_PROG_INFO"
    pure (s, none)
  else
    let addr ← bootGet32
    let nbytes ← bootGet32
    let crc ← bootGet32
    if l.collides addr nbytes then
      bootErr BootOp.bootError "Code will collide with the bootloader"
      pure (s, none)
    else
      bootPut32 BootOp.getCode
      bootPut32 crc
      recvCode addr nbytes crc s

def getCode (l : Loader) (m : ℕ) (s : PiMem) : Serial (PiMem × Option Word) := do
  waitForData m
  recvProgInfo l s

/-- The memory after the copy loop has received `bs` from byte `i` on. -/
def PiMem.copied (addr : Word) : ℕ → List UInt8 → PiMem → PiMem
  | _, [], s => s
  | i, b::bs, s => copied addr (i+1) bs (s.PUT8 (addr + BitVec.ofNat 32 i) b)

section Copy
variable (addr : Word)

theorem copyCode_runs (bs : List UInt8) (i : ℕ) (s : PiMem) :
    (copyCode addr bs.length i s).Runs bs [] (.done (s.copied addr i bs)) := by
  induction bs generalizing i s with
  | nil => exact .refl _
  | cons b bs ih => exact (uartGet8_runs b).seq_recv (ih ..)

theorem copied_puts (bs : List UInt8) (i : ℕ) (s : PiMem) :
    (s.copied addr i bs).puts =
      s.puts ++ (List.range' i bs.length).map fun k => addr + BitVec.ofNat 32 k := by
  induction bs generalizing i s with
  | nil => simp [PiMem.copied]
  | cons b bs ih => simp [PiMem.copied, ih, PiMem.PUT8, List.range'_succ]

/-- Two different offsets below `2^32` are different addresses. -/
theorem offset_inj {addr : Word} {j k : ℕ} (hj : j < 2^32) (hk : k < 2^32)
    (h : addr + BitVec.ofNat 32 j = addr + BitVec.ofNat 32 k) : j = k := by
  have heq := congrArg BitVec.toNat (add_left_cancel h)
  rwa [BitVec.toNat_ofNat, BitVec.toNat_ofNat, Nat.mod_eq_of_lt hj, Nat.mod_eq_of_lt hk] at heq

theorem copied_mem_of_lt (bs : List UInt8) (i : ℕ) (s : PiMem) (hbs : i+bs.length ≤ 2^32) {k : ℕ}
    (hk : k < i) :
    (s.copied addr i bs).mem (addr + BitVec.ofNat 32 k) = s.mem (addr + BitVec.ofNat 32 k) := by
  induction bs generalizing i s with
  | nil => rfl
  | cons b bs ih =>
    rw [List.length_cons] at hbs
    rw [PiMem.copied, ih (i+1) _ (by omega) (by omega)]
    refine Function.update_of_ne (fun h => ?_) _ _
    have := offset_inj (by omega) (by omega) h
    omega

theorem copied_mem (bs : List UInt8) (i : ℕ) (s : PiMem) (hbs : i+bs.length ≤ 2^32) {k : ℕ}
    (hk : k < bs.length) :
    (s.copied addr i bs).mem (addr + BitVec.ofNat 32 (i+k)) = bs[k] := by
  induction bs generalizing i s k with
  | nil => simp at hk
  | cons b bs ih =>
    rw [List.length_cons] at hbs hk
    cases k with
    | zero =>
      simp only [Nat.add_zero]
      rw [PiMem.copied, copied_mem_of_lt addr bs (i+1) _ (by omega) (Nat.lt_succ_self i)]
      exact Function.update_self ..
    | succ k =>
      have h := ih (i+1) (s.PUT8 (addr + BitVec.ofNat 32 i) b) (k := k) (by omega) (by omega)
      rw [Nat.succ_add_eq_add_succ] at h
      exact h

theorem copied_bytes (bs : List UInt8) (s : PiMem) (hbs : bs.length ≤ 2^32) :
    (s.copied addr 0 bs).bytes addr bs.length = bs := by
  apply List.ext_getElem
  · simp [PiMem.bytes]
  · intro k _ hk
    have h := copied_mem addr bs 0 s (by omega) hk
    rw [Nat.zero_add] at h
    simp [PiMem.bytes, h]

end Copy

section Spec
variable {l : Loader} {addr nbytes crc : Word} {s : PiMem} {code : List UInt8}

theorem bootPutk_runs (msg : String) :
    (bootPutk msg).Runs [] (wordBytes BootOp.printString ++
      (wordBytes (BitVec.ofNat 32 (chars msg).length) ++ chars msg)) (.done ()) :=
  (bootPut32_runs _).seq_send ((bootPut32_runs _).seq_send (Proc.Runs.sendAll _))

theorem bootErr_runs (error : Word) (msg : String) :
    ∃ o, (bootErr error msg).Runs [] o (.done ()) :=
  ⟨_, (bootPutk_runs msg).seq_send (bootPut32_runs error)⟩

/-- The words that ask for a program. -/
def requests (m : ℕ) : List UInt8 := (List.replicate m (wordBytes BootOp.getProgInfo)).flatten

theorem waitForData_runs (m : ℕ) : (waitForData m).Runs [] (requests m) (.done ()) := by
  induction m with
  | zero => exact .refl _
  | succ m ih => exact (bootPut32_runs _).seq_send ih

/-- What the laptop sends first. -/
def progInfo (addr nbytes crc : Word) : List UInt8 :=
  wordBytes BootOp.putProgInfo ++ (wordBytes addr ++ (wordBytes nbytes ++ wordBytes crc))

/-- A program that passes the check is asked for. -/
theorem recvProgInfo_runs (h : ¬l.collides addr nbytes) (crc : Word) (s : PiMem) :
    (recvProgInfo l s).Runs (progInfo addr nbytes crc)
      (wordBytes BootOp.getCode ++ wordBytes crc) (recvCode addr nbytes crc s) := by
  apply (bootGet32_runs _).seq_recv
  rw [if_neg (not_not_intro rfl)]
  apply (bootGet32_runs addr).seq_recv
  apply (bootGet32_runs nbytes).seq_recv
  apply (bootGet32_runs crc).seq_recv
  rw [if_neg h]
  apply (bootPut32_runs _).seq_send
  exact (bootPut32_runs crc).bind _

/-- What the Pi answers to the whole program. -/
def success : List UInt8 :=
  wordBytes BootOp.printString ++ (wordBytes 53 ++
    chars "Rishi Verma: success: Received the program with UART!") ++ wordBytes BootOp.bootSuccess

/-- The program is copied, and its checksum decides about the result. -/
theorem recvCode_runs (addr : Word) (hlen : code.length = nbytes.toNat) (crc : Word) (s : PiMem) :
    ∃ o r, (recvCode addr nbytes crc s).Runs (wordBytes BootOp.putCode ++ code) o (.done r) ∧
      r.1 = s.copied addr 0 code ∧
      (crc32 code = crc → o = success ∧ r.2 = some addr) := by
  have hbytes : (s.copied addr 0 code).bytes addr nbytes.toNat = code := by
    rw [← hlen]
    exact copied_bytes addr code s (hlen ▸ nbytes.isLt.le)
  have hcopy := copyCode_runs addr code 0 s
  rw [hlen] at hcopy
  by_cases hcrc : crc32 code = crc
  · refine ⟨success, (_, some addr), ?_, rfl, fun _ => ⟨rfl,rfl⟩⟩
    apply (bootGet32_runs _).seq_recv
    rw [if_neg (not_not_intro rfl)]
    apply hcopy.answer
    rw [hbytes, if_neg (not_not_intro hcrc)]
    apply (bootPutk_runs _).seq_send
    exact (bootPut32_runs _).bind _
  · obtain ⟨o,ho⟩ := bootErr_runs BootOp.bootError "Checksum mismatch"
    refine ⟨o, (_, none), ?_, rfl, fun h => absurd h hcrc⟩
    apply (bootGet32_runs _).seq_recv
    rw [if_neg (not_not_intro rfl)]
    apply hcopy.answer
    rw [hbytes, if_pos hcrc]
    exact ho.bind _

/-- The whole of `get_code` for a program that passes the check. -/
theorem getCode_runs (h : ¬l.collides addr nbytes) (hlen : code.length = nbytes.toNat) (m : ℕ)
    (crc : Word) (s : PiMem) :
    ∃ o r, (getCode l m s).Runs (progInfo addr nbytes crc ++ (wordBytes BootOp.putCode ++ code)) o
      (.done r) ∧ r.1 = s.copied addr 0 code := by
  obtain ⟨o,r,hrun,hr,-⟩ := recvCode_runs addr hlen crc s
  exact ⟨_, r, (waitForData_runs m).seq_send ((recvProgInfo_runs h crc s).trans hrun), hr⟩

end Spec

/-- An address that is not in the loader. -/
def Loader.Free (l : Loader) (a : Word) : Prop := l.codeStart ≤ a ∧ a < l.put32 ∧ a < l.progEnd

instance (l : Loader) (a : Word) : Decidable (l.Free a) := inferInstanceAs (Decidable (_ ∧ _))

/-- The check is right for a range that does not wrap, and for no other. -/
theorem free_range_iff {l : Loader} {addr nbytes : Word} (h : ¬l.collides addr nbytes) :
    (∀ i < nbytes.toNat, l.Free (addr + BitVec.ofNat 32 i)) ↔
      addr.toNat + nbytes.toNat < 2^32 := by
  simp only [Loader.collides, not_or, not_lt, not_le, BitVec.le_def, BitVec.lt_def,
    BitVec.toNat_add] at h
  obtain ⟨hlo,hput,hend⟩ := h
  simp only [Loader.Free, BitVec.le_def, BitVec.lt_def, BitVec.toNat_add, BitVec.toNat_ofNat]
  have haddr := addr.isLt
  have hbytes := nbytes.isLt
  constructor
  · intro hfree
    by_contra hwrap
    -- the last address of all is copied to
    have hlast := (hfree (2^32-1-addr.toNat) (by omega)).2.1
    have hput32 := l.put32.isLt
    omega
  · intro hle i hi
    rw [Nat.mod_eq_of_lt hle] at hput hend
    rw [Nat.mod_eq_of_lt (hi.trans hbytes), Nat.mod_eq_of_lt (by omega)]
    omega

/-- The copy loop stays out of the loader exactly if the range of the program does not wrap. -/
theorem getCode_spares_loader_iff {l : Loader} {addr nbytes : Word} {code : List UInt8}
    (h : ¬l.collides addr nbytes) (hlen : code.length = nbytes.toNat) (m : ℕ) (crc : Word)
    (mem : Word → UInt8) :
    ∃ o r, (getCode l m ⟨mem,[]⟩).Runs
      (progInfo addr nbytes crc ++ (wordBytes BootOp.putCode ++ code)) o (.done r) ∧
      r.1.puts = (List.range nbytes.toNat).map (fun i => addr + BitVec.ofNat 32 i) ∧
      ((∀ a ∈ r.1.puts, l.Free a) ↔ addr.toNat + nbytes.toNat < 2^32) := by
  obtain ⟨o,r,hrun,hr⟩ := getCode_runs h hlen m crc ⟨mem,[]⟩
  have hputs : r.1.puts = (List.range nbytes.toNat).map fun i => addr + BitVec.ofNat 32 i := by
    rw [hr, copied_puts, hlen, List.range_eq_range']
    rfl
  refine ⟨o, r, hrun, hputs, ?_⟩
  rw [← free_range_iff h, hputs]
  simp

/-- A loader from `0x8000` on. -/
def someLoader : Loader := ⟨0x8000, 0x9000, 0xa000⟩

theorem getCode_spares_loader_below :
    ∃ o r, (getCode someLoader 1 ⟨fun _ => 0,[]⟩).Runs
      (progInfo 0x8000 2 0 ++ (wordBytes BootOp.putCode ++ [1,2])) o (.done r) ∧
      ∀ a ∈ r.1.puts, someLoader.Free a := by
  obtain ⟨o,r,hrun,-,hiff⟩ := getCode_spares_loader_iff
    (show ¬someLoader.collides 0x8000 2 by decide) (show [(1 : UInt8),2].length = 2 from rfl)
    1 0 (fun _ => 0)
  exact ⟨o, r, hrun, hiff.mpr (by decide)⟩

/-- Two bytes at the end of the address space pass the check, and the second one is written to
address 0. -/
theorem wrapped_range_written :
    ∃ o r, (getCode someLoader 1 ⟨fun _ => 0,[]⟩).Runs
      (progInfo 0xFFFFFFFF 2 0 ++ (wordBytes BootOp.putCode ++ [1,2])) o (.done r) ∧
      0 ∈ r.1.puts ∧ ¬someLoader.Free 0 := by
  obtain ⟨o,r,hrun,hr⟩ := getCode_runs
    (show ¬someLoader.collides 0xFFFFFFFF 2 by decide) (show [(1 : UInt8),2].length = 2 from rfl)
    1 0 ⟨fun _ => 0,[]⟩
  refine ⟨o, r, hrun, ?_, by decide⟩
  rw [hr, copied_puts]
  decide

end DistributedPis
