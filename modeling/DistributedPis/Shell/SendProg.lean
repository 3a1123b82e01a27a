import DistributedPis.Shell.RunProg
import DistributedPis.Shell.SimpleBoot

/-! The shell's side of a program transfer (`send_prog` in `shell.c`), and both sides on a link.
They stay in step for every program, but only one of at most 7990 bytes fits on the Pi. -/
namespace DistributedPis
open Library

/-- A command line; `parse_line` refuses more than 100 arguments. -/
structure ShellCommand where
  command : Word
  tokens : List (List Char)
  ntoks_le : tokens.length ≤ 100

def isSpace (c : Char) : Bool := c = ' ' ∨ (9 ≤ c.toNat ∧ c.toNat ≤ 13)

/-- The number that the digits at the start of a text stand for. -/
def digits (s : List Char) : ℤ :=
  (s.takeWhile Char.isDigit).foldl (fun n c => 10*n + (c.toNat-48)) 0

/-- The integer that a text starts with. -/
def denoted (s : List Char) : ℤ :=
  match s.dropWhile isSpace with
  | '-'::ds => -digits ds
  | '+'::ds => digits ds
  | ds => digits ds

/-- `strtol` stays within the 64 bits of a `long`, of which an `int` keeps the lower 32. -/
def atoi (s : List Char) : ℤ := Int.bmod (max (-2^63) (min (2^63-1) (denoted s))) (2^32)

/-- An argument as a `uint8_t`. -/
def piId (token : List Char) : UInt8 := UInt8.ofNat (atoi token % 256).toNat

/-- The size of a file is kept in 32 bits. -/
def readFile (content : List UInt8) : List UInt8 := content.take (content.length % 2^32)

inductive SendResult where
  | usage
  | badId
  | ran (ok : Bool)
deriving DecidableEq

/-- The end of `send_prog`. -/
def awaitDone : Serial SendResult := do
  let got ← getUint32
  ckEq32 ShellOp.codeGot got
  let x ← getUint32
  pure (.ran (x = ShellOp.done))

/-- The part of `send_prog` after the arguments. -/
def sendBytes (code pis : List UInt8) : Serial SendResult := do
  let n ← getUint32
  ckEq32 (BitVec.ofNat 32 pis.length) n
  let crc ← getUint32
  ckEq32 (crc32 code) crc
  putUint32 ShellOp.sendCode
  Proc.sendAll code
  awaitDone

/-- The exchange of `send_prog` with the Pi. -/
def sendArgs (command : Word) (code pis : List UInt8) : Serial SendResult := do
  putUint32 command
  putUint32 (BitVec.ofNat 32 code.length)
  putUint32 (crc32 code)
  putUint32 (BitVec.ofNat 32 pis.length)
  Proc.sendAll pis
  sendBytes code pis

/-- `files` is the file system of the laptop. -/
def sendProg (files : List Char → Option (List UInt8)) (cmd : ShellCommand) : Serial SendResult :=
  match cmd.tokens with
  | [] | [_] => pure .usage
  | prog::ids =>
    match files prog with
    | none => .fail
    | some content =>
      if ∃ id ∈ ids.map piId, 0xF < id then pure .badId
      else sendArgs cmd.command (readFile content) (ids.map piId)

/-- The command is one that `send_prog` sends: the program `code` for the nodes `pis`. -/
structure Accepted (files : List Char → Option (List UInt8)) (cmd : ShellCommand)
    (code pis : List UInt8) : Prop where
  parts : ∃ prog ids content, cmd.tokens = prog::ids ∧ ids ≠ [] ∧ files prog = some content ∧
    code = readFile content ∧ pis = ids.map piId
  low : ∀ id ∈ pis, id ≤ 0xF

/-- The program is delivered: both sides agree on it, nothing is left on the link, and the array
holds it between its markers. -/
structure Transferred (stack : ℕ → UInt8) (code pis : List UInt8)
    (c : Link UInt8 SendResult (Option RunProg)) : Prop where
  shell : c.left = .done (.ran true)
  pi : ∃ s, c.right = .done (some ⟨BitVec.ofNat 32 code.length, crc32 code, pis, s,
    framed stack code⟩) ∧ s.bytes progAddr code.length = code
  read : c.toRight = [] ∧ c.toLeft = []

section Spec
variable {files : List Char → Option (List UInt8)} {cmd : ShellCommand} {code pis : List UInt8}

theorem readFile_length_lt (content : List UInt8) : (readFile content).length < 2^32 := by
  rw [readFile, List.length_take]
  omega

theorem Accepted.sendProg_eq (h : Accepted files cmd code pis) :
    sendProg files cmd = sendArgs cmd.command code pis := by
  obtain ⟨prog,ids,content,htok,hids,hfile,rfl,rfl⟩ := h.parts
  have hlow : ¬∃ id ∈ ids.map piId, 0xF < id := by
    rintro ⟨id,hid,hlt⟩
    exact absurd (h.low id hid) (UInt8.not_le.mpr hlt)
  obtain ⟨id,ids,rfl⟩ := List.exists_cons_of_ne_nil hids
  rw [sendProg, htok]
  dsimp only
  rw [hfile]
  exact if_neg hlow

theorem Accepted.pis_length (h : Accepted files cmd code pis) :
    pis.length = (BitVec.ofNat 32 pis.length).toNat := by
  obtain ⟨prog,ids,content,htok,-,-,-,rfl⟩ := h.parts
  have hle := cmd.ntoks_le
  rw [htok, List.length_cons] at hle
  rw [List.length_map, BitVec.toNat_ofNat, Nat.mod_eq_of_lt (by omega)]

theorem Accepted.code_length (h : Accepted files cmd code pis) :
    code.length = (BitVec.ofNat 32 code.length).toNat := by
  obtain ⟨prog,ids,content,-,-,-,rfl,-⟩ := h.parts
  rw [BitVec.toNat_ofNat, Nat.mod_eq_of_lt (readFile_length_lt content)]

theorem sendArgs_runs (command : Word) (code pis : List UInt8) :
    (sendArgs command code pis).Runs [] (wordBytes command ++
      (wordBytes (BitVec.ofNat 32 code.length) ++ (wordBytes (crc32 code) ++
        (wordBytes (BitVec.ofNat 32 pis.length) ++ pis)))) (sendBytes code pis) := by
  apply (putUint32_runs _).seq_send
  apply (putUint32_runs _).seq_send
  apply (putUint32_runs _).seq_send
  apply (putUint32_runs _).seq_send
  exact (Proc.Runs.sendAll pis).bind _

theorem sendBytes_runs (code pis : List UInt8) :
    (sendBytes code pis).Runs (wordBytes (BitVec.ofNat 32 pis.length) ++ wordBytes (crc32 code))
      (wordBytes ShellOp.sendCode ++ code) awaitDone := by
  apply (getUint32_runs _).seq_recv
  rw [ckEq32, if_pos rfl]
  apply (getUint32_runs (crc32 code)).answer
  rw [ckEq32, if_pos rfl]
  apply (putUint32_runs _).seq_send
  exact (Proc.Runs.sendAll code).bind _

theorem awaitDone_runs : awaitDone.Runs (wordBytes ShellOp.codeGot ++ wordBytes ShellOp.done) []
    (.done (.ran true)) := by
  apply (getUint32_runs _).seq_recv
  rw [ckEq32, if_pos rfl]
  exact (getUint32_runs ShellOp.done).bind _

variable {stack : ℕ → UInt8} {s : PiMem}

/-- Both sides up to the program itself. -/
theorem transfer_begins (h : Accepted files cmd code pis) (hcmd : cmd.command = ShellOp.run)
    (stack : ℕ → UInt8) (s : PiMem) :
    Link.Reaches (.start (sendProg files cmd) (serve stack s))
      ⟨awaitDone, awaitCode stack (BitVec.ofNat 32 code.length) (crc32 code) pis s >>=
        fun r => pure (some r), wordBytes ShellOp.sendCode ++ code, []⟩ := by
  rw [h.sendProg_eq, hcmd]
  have hargs := Link.answers_left (sendArgs_runs ShellOp.run code pis) (serve stack s)
  have hecho := Link.answers_right (serve_runs stack s (BitVec.ofNat 32 code.length) (crc32 code)
    h.pis_length) (sendBytes code pis)
  exact (hargs.trans hecho).trans (Link.answers_left (sendBytes_runs code pis) _)

theorem transfer_fits (h : Accepted files cmd code pis) (hcmd : cmd.command = ShellOp.run)
    (hlong : 12 ≤ code.length) (hhdr : HasHeader code) (hlen : code.length ≤ 7990)
    (stack : ℕ → UInt8) (s : PiMem) :
    Ends Link.Step (Transferred stack code pis) (.start (sendProg files cmd) (serve stack s)) := by
  have hrecv := (awaitCode_runs (recvBuf_runs stack (crc32 code) pis s h.code_length hlen hlong
    hhdr)).bind fun r => pure (some r)
  have hrun := ((transfer_begins h hcmd stack s).trans (Link.answers_right hrecv _)).trans
    (Link.answers_left awaitDone_runs _)
  apply Ends.of_run Link.step_diamond hrun
  · exact Link.final_of_idle (Proc.idle_done _) (Proc.idle_done _)
  · refine ⟨rfl, ⟨_,rfl,copied_bytes progAddr code s ?_⟩, rfl, rfl⟩
    exact (h.code_length ▸ BitVec.isLt _).le

theorem transfer_overflows (h : Accepted files cmd code pis) (hcmd : cmd.command = ShellOp.run)
    (hlen : 7990 < code.length) (stack : ℕ → UInt8) (s : PiMem) :
    ¬Ends Link.Step (Transferred stack code pis)
      (.start (sendProg files cmd) (serve stack s)) := by
  intro hends
  obtain ⟨bs₁,bs₂,hcode,hrun⟩ := recvBuf_overflows stack (crc32 code) pis s h.code_length hlen
  subst hcode
  have hfail := Link.reaches_right ((awaitCode_runs hrun).bind fun r => pure (some r)) awaitDone
    bs₂ []
  rw [List.append_assoc] at hfail
  have hend := (hends.run ((transfer_begins h hcmd stack s).trans hfail)).final
    (Link.final_of_fail (getUint32_starved _).idle)
  obtain ⟨_,hright,_⟩ := hend.pi
  cases hright

end Spec

/-- A transfer is delivered on every schedule exactly if the program has at most 7990 bytes. -/
theorem transfer_iff {files : List Char → Option (List UInt8)} {cmd : ShellCommand}
    {code pis : List UInt8} (h : Accepted files cmd code pis) (hcmd : cmd.command = ShellOp.run)
    (hlong : 12 ≤ code.length) (hhdr : HasHeader code) (stack : ℕ → UInt8) (s : PiMem) :
    Ends Link.Step (Transferred stack code pis) (.start (sendProg files cmd) (serve stack s)) ↔
      code.length ≤ 7990 := by
  by_cases hlen : code.length ≤ 7990
  · exact iff_of_true (transfer_fits h hcmd hlong hhdr hlen stack s) hlen
  · exact iff_of_false (transfer_overflows h hcmd (Nat.not_le.mp hlen) stack s) hlen

/-- A header and nothing else. -/
def headerOnly : List UInt8 := [0x78,0x56,0x34,0x12, 0,0,0,0, 0,0,0x08,0]

/-- Files that have the header and `k` more bytes. -/
def headerFiles (k : ℕ) (_ : List Char) : Option (List UInt8) :=
  some (headerOnly ++ List.replicate k 0)

/-- `run prog.bin 1 2`. -/
def runTwo : ShellCommand := ⟨ShellOp.run, ["prog.bin".toList, ['1'], ['2']], by decide⟩

theorem accepted_runTwo (k : ℕ) (hk : k < 10000) :
    Accepted (headerFiles k) runTwo (headerOnly ++ List.replicate k 0) [1,2] where
  parts := by
    have hlen : (headerOnly ++ List.replicate k 0).length < 2^32 := by
      rw [List.length_append, List.length_replicate]
      have h12 : headerOnly.length = 12 := rfl
      omega
    refine ⟨_, [['1'],['2']], _, rfl, List.cons_ne_nil _ _, rfl, ?_, by decide⟩
    rw [readFile, Nat.mod_eq_of_lt hlen, List.take_length]
  low := by
    intro id hid
    rcases List.mem_pair.mp hid with rfl | rfl <;> decide

theorem transfer_iff_header :
    Ends Link.Step (Transferred (fun _ => 0) headerOnly [1,2])
      (.start (sendProg (headerFiles 0) runTwo) (serve (fun _ => 0) ⟨fun _ => 0,[]⟩)) :=
  (transfer_iff (accepted_runTwo 0 (by decide)) rfl (by decide) (by decide) _ _).mpr (by decide)

/-- A program of 7991 bytes leaves three bytes for the last marker. -/
theorem transfer_fails_at_7991 :
    Accepted (headerFiles 7979) runTwo (headerOnly ++ List.replicate 7979 0) [1,2] ∧
    HasHeader (headerOnly ++ List.replicate 7979 0) ∧
    ¬Ends Link.Step (Transferred (fun _ => 0) (headerOnly ++ List.replicate 7979 0) [1,2])
      (.start (sendProg (headerFiles 7979) runTwo) (serve (fun _ => 0) ⟨fun _ => 0,[]⟩)) := by
  have hacc := accepted_runTwo 7979 (by decide)
  have hhdr : HasHeader (headerOnly ++ List.replicate 7979 0) := by
    rw [HasHeader, word32_append _ (by decide), word32_append _ (by decide)]
    decide
  refine ⟨hacc, hhdr, transfer_overflows hacc rfl ?_ _ _⟩
  rw [List.length_append, List.length_replicate]
  decide

end DistributedPis
