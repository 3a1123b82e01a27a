import DistributedPis.Shell.GetCode

/-! The Pi's side of a program transfer (`run_prog` in `server.c`). The program is put between two
markers in an array of 8000 bytes on the stack, whatever its length. -/
namespace DistributedPis
open Library

namespace ShellOp

def exit : Word := 0
def run : Word := 1
def update : Word := 2
def list : Word := 3

def piReady : Word := 0xFF00
def unixReady : Word := 0xFF01
def ack : Word := 0xFF02
def sendCode : Word := 0xFF03
def codeGot : Word := 0xFF04
def done : Word := 0xFF05

end ShellOp

/-- Where the program is copied to. -/
def progAddr : Word := 0x80000

def bufSize : ℕ := 8000

/-- `memcpy` into an array at offset `i`; there is no result outside of the array. -/
def memcpyAt (buf : List UInt8) (i : ℕ) (bs : List UInt8) : Option (List UInt8) :=
  if i + bs.length ≤ buf.length then some (buf.take i ++ bs ++ buf.drop (i+bs.length)) else none

/-- A write that is out of bounds ends the model of the program. -/
def checked {α : Type} : Option α → Serial α
  | none => .fail
  | some a => .done a

/-- An array on the stack before anything is written to it. -/
def uninit (stack : ℕ → UInt8) (n : ℕ) : List UInt8 := (List.range n).map stack

/-- Word `k` of the bytes from a pointer on. -/
def word32 (bs : List UInt8) (k : ℕ) : Word :=
  BitVec.ofNat 32 (le32 (bs.getD (4*k) 0) (bs.getD (4*k+1) 0) (bs.getD (4*k+2) 0)
    (bs.getD (4*k+3) 0))

/-- The header that `run_prog` asserts. -/
def HasHeader (bs : List UInt8) : Prop := word32 bs 0 = 0x12345678 ∧ word32 bs 2 = progAddr

instance (bs : List UInt8) : Decidable (HasHeader bs) := inferInstanceAs (Decidable (_ ∧ _))

/-- The loop that reads the ids. -/
def recvPis : (left i : ℕ) → List UInt8 → Serial (List UInt8)
  | 0, _, pis => pure pis
  | left+1, i, pis => do
    let id ← uartGet8
    let pis ← checked (memcpyAt pis i [id])
    recvPis left (i+1) pis

/-- The loop that reads the program from byte `i` on. -/
def recvProg : (left i : ℕ) → PiMem → List UInt8 → Serial (PiMem × List UInt8)
  | 0, _, s, buf => pure (s, buf)
  | left+1, i, s, buf => do
    let byte ← uartGet8
    let buf ← checked (memcpyAt buf (i+6) [byte])
    recvProg left (i+1) (s.PUT8 (progAddr + BitVec.ofNat 32 i) byte) buf

/-- What `run_prog` has in its variables at the end; `buf` goes to the client as it is. -/
structure RunProg where
  nbytes : Word
  crc : Word
  pis : List UInt8
  s : PiMem
  buf : List UInt8

/-- The part of `run_prog` that reads the program. -/
def recvBuf (stack : ℕ → UInt8) (nbytes crc : Word) (pis : List UInt8) (s : PiMem) :
    Serial RunProg := do
  let buf ← checked (memcpyAt (uninit stack bufSize) 0 (chars "START:"))
  let (s, buf) ← recvProg nbytes.toNat 0 s buf
  let buf ← checked (memcpyAt buf (6+nbytes.toNat) (chars ":END"))
  if HasHeader (buf.drop 6) then
    bootPut32 ShellOp.codeGot
    bootPut32 ShellOp.done
    pure ⟨nbytes, crc, pis, s, buf⟩
  else .fail

/-- The part of `run_prog` after the echo of the arguments. -/
def awaitCode (stack : ℕ → UInt8) (nbytes crc : Word) (pis : List UInt8) (s : PiMem) :
    Serial RunProg := do
  let op ← bootGet32
  if op ≠ ShellOp.sendCode then
    bootErr BootOp.bootError "Expected PUT_CODE"
    .fail
  else recvBuf stack nbytes crc pis s

def runProg (stack : ℕ → UInt8) (s : PiMem) : Serial RunProg := do
  let nbytes ← bootGet32
  let crc ← bootGet32
  let n ← bootGet32
  let pis ← recvPis n.toNat 0 (uninit stack n.toNat)
  bootPut32 n
  bootPut32 crc
  awaitCode stack nbytes crc pis s

/-- One round of the loop of `notmain`. Only `RUN` does anything. -/
def serve (stack : ℕ → UInt8) (s : PiMem) : Serial (Option RunProg) := do
  let op ← bootGet32
  if op = ShellOp.run then
    let r ← runProg stack s
    pure (some r)
  else pure none

section Buffer
variable {pre rest bs : List UInt8} {i : ℕ} {s : PiMem}

/-- The array is what is written so far and the rest. -/
theorem memcpyAt_append (h : bs.length ≤ rest.length) :
    memcpyAt (pre ++ rest) pre.length bs = some (pre ++ bs ++ rest.drop bs.length) := by
  rw [memcpyAt, if_pos (by simpa using h)]
  simp

theorem memcpyAt_overflow (h : rest.length < bs.length) :
    memcpyAt (pre ++ rest) pre.length bs = none := by
  rw [memcpyAt, if_neg (by simpa using h)]

theorem memcpyAt_one (b r : UInt8) (rest : List UInt8) :
    memcpyAt (pre ++ r::rest) pre.length [b] = some (pre ++ b::rest) := by
  rw [memcpyAt_append (by simp), List.append_assoc]
  rfl

theorem recvPis_runs (ids pre rest : List UInt8) (h : ids.length = rest.length) :
    (recvPis ids.length pre.length (pre ++ rest)).Runs ids [] (.done (pre ++ ids)) := by
  induction ids generalizing pre rest with
  | nil =>
    obtain rfl := List.length_eq_zero_iff.mp h.symm
    exact .refl _
  | cons b bs ih =>
    cases rest with
    | nil => simp at h
    | cons r rest =>
      have hrest := ih (pre ++ [b]) rest (Nat.succ.inj h)
      rw [List.append_assoc, List.append_assoc, List.length_append] at hrest
      apply (uartGet8_runs b).seq_recv
      rw [memcpyAt_one]
      exact hrest

theorem recvProg_runs (bs pre rest : List UInt8) (i : ℕ) (s : PiMem) (hi : pre.length = i+6)
    (h : bs.length ≤ rest.length) :
    (recvProg bs.length i s (pre ++ rest)).Runs bs []
      (.done (s.copied progAddr i bs, pre ++ bs ++ rest.drop bs.length)) := by
  induction bs generalizing pre rest i s with
  | nil =>
    rw [List.append_nil]
    exact .refl _
  | cons b bs ih =>
    cases rest with
    | nil => simp at h
    | cons r rest =>
      have hrest := ih (pre ++ [b]) rest (i+1) (s.PUT8 (progAddr + BitVec.ofNat 32 i) b)
        (by simp [hi]) (Nat.le_of_succ_le_succ h)
      rw [List.append_assoc pre, List.append_assoc pre [b]] at hrest
      apply (uartGet8_runs b).seq_recv
      rw [← hi, memcpyAt_one]
      exact hrest

/-- A program that does not fit fails on the way. -/
theorem recvProg_overflows (bs pre rest : List UInt8) (i : ℕ) (s : PiMem)
    (hi : pre.length = i+6) (h : rest.length < bs.length) :
    ∃ bs₁ bs₂, bs = bs₁ ++ bs₂ ∧ (recvProg bs.length i s (pre ++ rest)).Runs bs₁ [] .fail := by
  induction bs generalizing pre rest i s with
  | nil => simp at h
  | cons b bs ih =>
    cases rest with
    | nil =>
      refine ⟨[b], bs, rfl, (uartGet8_runs b).answer ?_⟩
      rw [← hi, memcpyAt_overflow (by simp)]
      exact .refl _
    | cons r rest =>
      obtain ⟨bs₁,bs₂,rfl,hrun⟩ := ih (pre ++ [b]) rest (i+1)
        (s.PUT8 (progAddr + BitVec.ofNat 32 i) b) (by simp [hi]) (Nat.lt_of_succ_lt_succ h)
      rw [List.append_assoc] at hrun
      refine ⟨b::bs₁, bs₂, rfl, (uartGet8_runs b).seq_recv ?_⟩
      rw [← hi, memcpyAt_one]
      exact hrun

end Buffer

section Spec
variable {stack : ℕ → UInt8} {nbytes crc : Word} {pis code : List UInt8} {s : PiMem}

theorem word32_append {bs : List UInt8} (cs : List UInt8) {k : ℕ} (h : 4*k+3 < bs.length) :
    word32 (bs ++ cs) k = word32 bs k := by
  have hget : ∀ j, j < bs.length → (bs ++ cs).getD j 0 = bs.getD j 0 := fun j hj => by
    simp [List.getD_eq_getElem?_getD, List.getElem?_append_left hj]
  rw [word32, hget _ (by omega), hget _ (by omega), hget _ (by omega), hget _ h, word32]

/-- The array when the program is in it. -/
def framed (stack : ℕ → UInt8) (code : List UInt8) : List UInt8 :=
  chars "START:" ++ code ++ chars ":END" ++ (uninit stack bufSize).drop (10+code.length)

/-- The part of the array behind the first marker. -/
def room (stack : ℕ → UInt8) : List UInt8 := (uninit stack bufSize).drop 6

@[simp] theorem room_length (stack : ℕ → UInt8) : (room stack).length = 7994 := by
  simp [room, uninit, bufSize]

theorem memcpyAt_start (stack : ℕ → UInt8) :
    memcpyAt (uninit stack bufSize) 0 (chars "START:") = some (chars "START:" ++ room stack) := by
  have hstart : (chars "START:").length = 6 := rfl
  rw [memcpyAt, if_pos (by rw [hstart]; simp [uninit, bufSize]), List.take_zero, List.nil_append,
    hstart, Nat.zero_add, room]

theorem memcpyAt_end (hlen : code.length ≤ 7990) :
    memcpyAt (chars "START:" ++ code ++ (room stack).drop code.length) (6+code.length)
      (chars ":END") = some (framed stack code) := by
  have hpre : 6+code.length = (chars "START:" ++ code).length := by
    rw [List.length_append]
    rfl
  rw [hpre, memcpyAt_append (by simp [chars]; omega), framed, room, List.drop_drop, List.drop_drop]
  congr 3
  change 6 + (code.length+4) = _
  omega

theorem framed_header (hlong : 12 ≤ code.length) (h : HasHeader code) :
    HasHeader ((framed stack code).drop 6) := by
  have hdrop : (framed stack code).drop 6 =
      code ++ (chars ":END" ++ (uninit stack bufSize).drop (10+code.length)) := by
    rw [framed, List.append_assoc, List.append_assoc]
    rfl
  rw [hdrop, HasHeader, word32_append _ (by omega), word32_append _ (by omega)]
  exact h

/-- A program that fits is framed by the markers. -/
theorem recvBuf_runs (stack : ℕ → UInt8) (crc : Word) (pis : List UInt8)
    (s : PiMem) (hnat : code.length = nbytes.toNat) (hlen : code.length ≤ 7990)
    (hlong : 12 ≤ code.length) (h : HasHeader code) :
    (recvBuf stack nbytes crc pis s).Runs code
      (wordBytes ShellOp.codeGot ++ wordBytes ShellOp.done)
      (.done ⟨nbytes, crc, pis, s.copied progAddr 0 code, framed stack code⟩) := by
  have hrun := recvProg_runs code (chars "START:") (room stack) 0 s rfl (by simp; omega)
  rw [recvBuf, memcpyAt_start, ← hnat]
  apply hrun.answer
  dsimp only
  rw [memcpyAt_end hlen]
  dsimp only [checked, Proc.done_bind]
  rw [if_pos (framed_header hlong h)]
  apply (bootPut32_runs _).seq_send
  exact (bootPut32_runs _).bind _

/-- A longer one is not received to its end, or leaves no room for the last marker. -/
theorem recvBuf_overflows (stack : ℕ → UInt8) (crc : Word) (pis : List UInt8) (s : PiMem)
    (hnat : code.length = nbytes.toNat) (hlen : 7990 < code.length) :
    ∃ bs₁ bs₂, code = bs₁ ++ bs₂ ∧ (recvBuf stack nbytes crc pis s).Runs bs₁ [] .fail := by
  rw [recvBuf, memcpyAt_start, ← hnat]
  by_cases hroom : code.length ≤ 7994
  · have hrun := recvProg_runs code (chars "START:") (room stack) 0 s rfl (by simpa using hroom)
    refine ⟨code, [], (List.append_nil _).symm, hrun.answer ?_⟩
    have hpre : 6+code.length = (chars "START:" ++ code).length := by
      rw [List.length_append]
      rfl
    dsimp only
    rw [hpre, memcpyAt_overflow (by simp [chars]; omega)]
    exact .refl _
  · obtain ⟨bs₁,bs₂,hcode,hrun⟩ := recvProg_overflows code (chars "START:") (room stack) 0 s rfl
      (by simp; omega)
    exact ⟨bs₁, bs₂, hcode, hrun.bind _⟩

/-- The head of `run_prog`, up to the echo of the arguments. -/
theorem serve_runs (stack : ℕ → UInt8) (s : PiMem) (nbytes crc : Word) {n : Word}
    (hn : pis.length = n.toNat) :
    (serve stack s).Runs (wordBytes ShellOp.run ++ (wordBytes nbytes ++ (wordBytes crc ++
        (wordBytes n ++ pis)))) (wordBytes n ++ wordBytes crc)
      (awaitCode stack nbytes crc pis s >>= fun r => pure (some r)) := by
  have hpis := recvPis_runs pis [] (uninit stack n.toNat) (by simp [uninit, hn])
  rw [List.nil_append, hn] at hpis
  apply (bootGet32_runs _).seq_recv
  rw [if_pos rfl]
  apply Proc.Runs.bind
  apply (bootGet32_runs nbytes).seq_recv
  apply (bootGet32_runs crc).seq_recv
  apply (bootGet32_runs n).seq_recv
  apply hpis.answer
  apply (bootPut32_runs n).seq_send
  exact (bootPut32_runs crc).bind _

theorem awaitCode_runs {i o : List UInt8} {p : Serial RunProg}
    (h : (recvBuf stack nbytes crc pis s).Runs i o p) :
    (awaitCode stack nbytes crc pis s).Runs (wordBytes ShellOp.sendCode ++ i) o p := by
  apply (bootGet32_runs _).seq_recv
  rw [if_neg (not_not_intro rfl)]
  exact h

end Spec

end DistributedPis
