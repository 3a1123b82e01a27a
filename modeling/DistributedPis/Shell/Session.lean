import DistributedPis.Shell.ParseLine
import DistributedPis.Shell.Synchronize

/-! A whole session: the loop of the shell (`main` in `shell.c`) on the lines that are typed, and the
loop of the Pi (`notmain` in `server.c`) on the other end of the line. The two stay in step over any
sequence of commands, because every command that is sent is read to its end before the next one. -/
namespace DistributedPis
open Library

/-- The text of the line without its newline. -/
def chomp (line : List Char) : List Char :=
  if (cText line).getLast? = some '\n' then (cText line).dropLast else cText line

/-- `exec_command`; the loop ends after `false`. -/
def execCommand (files : List Char → Option (List UInt8)) (cmd : ShellCommand) : Serial Bool :=
  if cmd.command = ShellOp.exit then do
    putUint32 cmd.command
    pure false
  else if cmd.command = ShellOp.run then do
    let _ ← sendProg files cmd
    pure true
  else if cmd.command = ShellOp.update then do
    putUint32 cmd.command
    pure true
  else if cmd.command = ShellOp.list then do
    putUint32 cmd.command
    pure true
  else pure true

/-- `command_loop` on a line that `getline` has read. -/
def commandLoop (files : List Char → Option (List UInt8)) (line : List Char) : Serial Bool :=
  match parseLine (chomp line) with
  | none => .fail
  | some .error => pure true
  | some (.ok command tokens) =>
    if h : tokens.length ≤ 100 then execCommand files ⟨command, tokens, h⟩ else .fail

/-- The loop of `main`, up to the end of the input. -/
def shellLoop (files : List Char → Option (List UInt8)) : List (List Char) → Serial Unit
  | [] => pure ()
  | line::lines => do
    let go ← commandLoop files line
    if go then shellLoop files lines else pure ()

/-- The loop of `notmain`; the fuel is a bound on its rounds, `stack` what `run_prog` finds on the
stack in each of them. -/
def serverLoop (stack : ℕ → ℕ → UInt8) :
    (fuel : ℕ) → PiMem → List RunProg → Serial (PiMem × List RunProg)
  | 0, _, _ => .fail
  | fuel+1, s, got => do
    let op ← bootGet32
    if op = ShellOp.exit then pure (s, got)
    else if op = ShellOp.run then do
      let r ← runProg (stack fuel) s
      serverLoop stack fuel r.s (got ++ [r])
    else serverLoop stack fuel s got

/-- `main` once the server is running on the Pi. -/
def shellMain (fuel : ℕ) (files : List Char → Option (List UInt8)) (lines : List (List Char)) :
    Serial Unit := do
  synchronize fuel
  shellLoop files lines

/-- `notmain`; `m` is the number of rounds of `wait_for_op`. -/
def serverMain (m : ℕ) (stack : ℕ → ℕ → UInt8) (fuel : ℕ) (s : PiMem) :
    Serial (PiMem × List RunProg) := do
  serverSynchronize m
  serverLoop stack fuel s []

/-- What a line asks for. -/
inductive LineAct
  | skip
  | tell (op : Word)
  | transfer (code pis : List UInt8)
  | quit
  deriving DecidableEq

/-- The lines that the session can stand: those that the shell refuses by itself, the commands
without arguments, and programs that fit. -/
inductive Means (files : List Char → Option (List UInt8)) : List Char → LineAct → Prop
  | error {line} (h : parseLine (chomp line) = some .error) : Means files line .skip
  | few {line tokens} (h : parseLine (chomp line) = some (.ok ShellOp.run tokens))
    (hfew : tokens.length < 2) : Means files line .skip
  | badId {line prog ids content} (h : parseLine (chomp line) = some (.ok ShellOp.run (prog::ids)))
    (hfile : files prog = some content) (hbad : ∃ id ∈ ids.map piId, 0xF < id) :
    Means files line .skip
  | update {line tokens} (h : parseLine (chomp line) = some (.ok ShellOp.update tokens)) :
    Means files line (.tell ShellOp.update)
  | list {line tokens} (h : parseLine (chomp line) = some (.ok ShellOp.list tokens)) :
    Means files line (.tell ShellOp.list)
  | exit {line tokens} (h : parseLine (chomp line) = some (.ok ShellOp.exit tokens)) :
    Means files line .quit
  | run {line cmd code pis} (h : parseLine (chomp line) = some (.ok ShellOp.run cmd.tokens))
    (hcmd : cmd.command = ShellOp.run) (hacc : Accepted files cmd code pis)
    (hlong : 12 ≤ code.length) (hhdr : HasHeader code) (hlen : code.length ≤ 7990) :
    Means files line (.transfer code pis)

/-- The programs that are sent before the session ends, with the nodes they are for. -/
def transfers : List LineAct → List (List UInt8 × List UInt8)
  | [] => []
  | .quit::_ => []
  | .transfer code pis::as => (code,pis) :: transfers as
  | _::as => transfers as

/-- The Pi has the program in its memory and, between the markers, in the array for the client. -/
structure Received (r : RunProg) (p : List UInt8 × List UInt8) : Prop where
  nbytes : r.nbytes = BitVec.ofNat 32 p.1.length
  crc : r.crc = crc32 p.1
  pis : r.pis = p.2
  mem : r.s.bytes progAddr p.1.length = p.1
  buf : ∃ rest, r.buf = chars "START:" ++ p.1 ++ chars ":END" ++ rest

/-- The shell has ended and the Pi has got what was sent; it has ended too if it was told to, and
waits for a command otherwise. Nothing is left on the line. -/
structure InStep (stack : ℕ → ℕ → UInt8) (old : List RunProg) (acts : List LineAct)
    (c : Link UInt8 Unit (PiMem × List RunProg)) : Prop where
  shell : c.left = .done ()
  pi : ∃ s got, List.Forall₂ Received got (transfers acts) ∧
    (.quit ∈ acts → c.right = .done (s, old ++ got)) ∧
    (.quit ∉ acts → ∃ k, c.right = serverLoop stack (k+1) s (old ++ got))
  read : c.toRight = [] ∧ c.toLeft = []

section Server
variable {stack : ℕ → ℕ → UInt8} {fuel : ℕ} {s : PiMem} {got : List RunProg}
  {code pis : List UInt8}

theorem serverLoop_starved (stack : ℕ → ℕ → UInt8) (fuel : ℕ) (s : PiMem) (got : List RunProg) :
    (serverLoop stack (fuel+1) s got).Starved :=
  (getUint32_starved _).bind _

theorem runProg_runs (stack : ℕ → UInt8) (s : PiMem) (nbytes crc : Word) {n : Word}
    (hn : pis.length = n.toNat) :
    (runProg stack s).Runs (wordBytes nbytes ++ (wordBytes crc ++ (wordBytes n ++ pis)))
      (wordBytes n ++ wordBytes crc) (awaitCode stack nbytes crc pis s) := by
  have hpis := recvPis_runs pis [] (uninit stack n.toNat) (by simp [uninit, hn])
  rw [List.nil_append, hn] at hpis
  apply (bootGet32_runs nbytes).seq_recv
  apply (bootGet32_runs crc).seq_recv
  apply (bootGet32_runs n).seq_recv
  apply hpis.answer
  apply (bootPut32_runs n).seq_send
  exact (bootPut32_runs crc).bind _

theorem serverLoop_ends (stack : ℕ → ℕ → UInt8) (fuel : ℕ) (s : PiMem) (got : List RunProg) :
    (serverLoop stack (fuel+1) s got).Runs (wordBytes ShellOp.exit) [] (.done (s, got)) := by
  have hread := (bootGet32_runs ShellOp.exit).bind fun op =>
    if op = ShellOp.exit then pure (s, got)
    else if op = ShellOp.run then do
      let r ← runProg (stack fuel) s
      serverLoop stack fuel r.s (got ++ [r])
    else serverLoop stack fuel s got
  rwa [Proc.done_bind, if_pos rfl] at hread

/-- The commands that are still to be written do nothing. -/
theorem serverLoop_skips {op : Word} (hexit : op ≠ ShellOp.exit) (hrun : op ≠ ShellOp.run) :
    (serverLoop stack (fuel+1) s got).Runs (wordBytes op) [] (serverLoop stack fuel s got) := by
  apply (bootGet32_runs op).answer
  rw [if_neg hexit, if_neg hrun]
  exact .refl _

/-- A round of `RUN`, up to the echo of the arguments. -/
theorem serverLoop_begins (nbytes crc : Word) {n : Word} (hn : pis.length = n.toNat) :
    (serverLoop stack (fuel+1) s got).Runs (wordBytes ShellOp.run ++ (wordBytes nbytes ++
        (wordBytes crc ++ (wordBytes n ++ pis)))) (wordBytes n ++ wordBytes crc)
      (awaitCode (stack fuel) nbytes crc pis s >>= fun r =>
        serverLoop stack fuel r.s (got ++ [r])) := by
  apply (bootGet32_runs _).seq_recv
  rw [if_neg (by decide), if_pos rfl]
  exact (runProg_runs (stack fuel) s nbytes crc hn).bind _

end Server

section Shell
variable {files : List Char → Option (List UInt8)} {line : List Char} {lines : List (List Char)}
  {op : Word} {cmd : ShellCommand} {code pis : List UInt8}

theorem commandLoop_ok {tokens : List (List Char)}
    (h : parseLine (chomp line) = some (.ok op tokens)) :
    commandLoop files line = execCommand files ⟨op, tokens, parseLine_tokens h⟩ := by
  rw [commandLoop, h]
  exact dif_pos (parseLine_tokens h)

theorem execCommand_run (hcmd : cmd.command = ShellOp.run) :
    execCommand files cmd = sendProg files cmd >>= fun _ => pure true := by
  rw [execCommand, hcmd, if_neg (by decide), if_pos rfl]

theorem execCommand_exit (hcmd : cmd.command = ShellOp.exit) :
    (execCommand files cmd).Runs [] (wordBytes ShellOp.exit) (.done false) := by
  rw [execCommand, hcmd, if_pos rfl]
  exact (putUint32_runs _).bind _

theorem execCommand_tell (hcmd : cmd.command = ShellOp.update ∨ cmd.command = ShellOp.list) :
    (execCommand files cmd).Runs [] (wordBytes cmd.command) (.done true) := by
  rcases hcmd with hcmd | hcmd
  · rw [execCommand, hcmd, if_neg (by decide), if_neg (by decide), if_pos rfl]
    exact (putUint32_runs _).bind _
  · rw [execCommand, hcmd, if_neg (by decide), if_neg (by decide), if_neg (by decide), if_pos rfl]
    exact (putUint32_runs _).bind _

theorem sendProg_few (h : cmd.tokens.length < 2) : sendProg files cmd = pure .usage := by
  rw [sendProg]
  rcases htok : cmd.tokens with _ | ⟨prog,_ | ⟨id,ids⟩⟩
  · rfl
  · rfl
  · rw [htok] at h
    exact absurd h (by simp)

theorem sendProg_badId {prog : List Char} {ids : List (List Char)} {content : List UInt8}
    (htok : cmd.tokens = prog::ids) (hfile : files prog = some content)
    (hbad : ∃ id ∈ ids.map piId, 0xF < id) : sendProg files cmd = pure .badId := by
  obtain ⟨id,ids,rfl⟩ : ∃ id ids', ids = id::ids' := by
    obtain ⟨_,hid,_⟩ := hbad
    exact List.exists_cons_of_ne_nil (by rintro rfl; cases hid)
  rw [sendProg, htok]
  dsimp only
  rw [hfile]
  exact if_pos hbad

theorem commandLoop_skip (h : Means files line .skip) : commandLoop files line = pure true := by
  cases h with
  | error h => rw [commandLoop, h]
  | few h hfew =>
    rw [commandLoop_ok h, execCommand_run rfl, sendProg_few hfew]
    rfl
  | badId h hfile hbad =>
    rw [commandLoop_ok h, execCommand_run rfl, sendProg_badId rfl hfile hbad]
    rfl

theorem commandLoop_tell (h : Means files line (.tell op)) :
    (op ≠ ShellOp.exit ∧ op ≠ ShellOp.run) ∧
      (commandLoop files line).Runs [] (wordBytes op) (.done true) := by
  cases h with
  | update h =>
    rw [commandLoop_ok h]
    exact ⟨by decide, execCommand_tell (.inl rfl)⟩
  | list h =>
    rw [commandLoop_ok h]
    exact ⟨by decide, execCommand_tell (.inr rfl)⟩

theorem commandLoop_quit (h : Means files line .quit) :
    (commandLoop files line).Runs [] (wordBytes ShellOp.exit) (.done false) := by
  cases h with
  | exit h =>
    rw [commandLoop_ok h]
    exact execCommand_exit rfl

end Shell

section Session
variable {files : List Char → Option (List UInt8)} {stack : ℕ → ℕ → UInt8} {line : List Char}
  {lines : List (List Char)} {code pis : List UInt8} {act : LineAct} {acts : List LineAct}
  {fuel : ℕ} {s : PiMem} {got : List RunProg}

/-- The two loops at the start of a round. -/
def between (files : List Char → Option (List UInt8)) (stack : ℕ → ℕ → UInt8)
    (lines : List (List Char)) (fuel : ℕ) (s : PiMem) (got : List RunProg) :
    Link UInt8 Unit (PiMem × List RunProg) :=
  .start (shellLoop files lines) (serverLoop stack fuel s got)

theorem round_skip (h : Means files line .skip) :
    between files stack (line::lines) fuel s got = between files stack lines fuel s got := by
  rw [between, shellLoop, commandLoop_skip h]
  rfl

theorem round_tell {op : Word} (h : Means files line (.tell op)) :
    Link.Reaches (between files stack (line::lines) (fuel+1) s got)
      (between files stack lines fuel s got) := by
  obtain ⟨⟨hexit,hrun⟩,hshell⟩ := commandLoop_tell h
  have hsend := Link.answers_left (hshell.bind fun go => if go then shellLoop files lines
    else pure ()) (serverLoop stack (fuel+1) s got)
  exact hsend.trans (Link.answers_right (serverLoop_skips hexit hrun) _)

theorem round_quit (h : Means files line .quit) :
    Link.Reaches (between files stack (line::lines) (fuel+1) s got)
      ⟨.done (), .done (s, got), [], []⟩ := by
  have hsend := Link.answers_left ((commandLoop_quit h).bind fun go => if go then
    shellLoop files lines else pure ()) (serverLoop stack (fuel+1) s got)
  exact hsend.trans (Link.answers_right (serverLoop_ends stack fuel s got) _)

/-- The rest of the session of the shell, from inside of `send_prog`. -/
def sending (files : List Char → Option (List UInt8)) (lines : List (List Char))
    (p : Serial SendResult) : Serial Unit := do
  let go ← p >>= fun _ => pure true
  if go then shellLoop files lines else pure ()

/-- The rest of the session of the Pi, from inside of `run_prog`. -/
def receiving (stack : ℕ → ℕ → UInt8) (fuel : ℕ) (got : List RunProg) (p : Serial RunProg) :
    Serial (PiMem × List RunProg) := do
  let r ← p
  serverLoop stack fuel r.s (got ++ [r])

theorem sending_runs (files : List Char → Option (List UInt8)) (lines : List (List Char))
    {i o : List UInt8} {p q : Serial SendResult} (h : p.Runs i o q) :
    (sending files lines p).Runs i o (sending files lines q) :=
  (h.bind _).bind _

theorem receiving_runs {i o : List UInt8} {p q : Serial RunProg} (h : p.Runs i o q) :
    (receiving stack fuel got p).Runs i o (receiving stack fuel got q) :=
  h.bind _

theorem shellLoop_sends (h : Means files line (.transfer code pis)) :
    shellLoop files (line::lines) = sending files lines (sendArgs ShellOp.run code pis) := by
  cases h with
  | @run cmd _ _ h hcmd hacc =>
    have heq : (⟨ShellOp.run, cmd.tokens, parseLine_tokens h⟩ : ShellCommand) = cmd := by
      obtain ⟨command,tokens,hle⟩ := cmd
      obtain rfl : command = ShellOp.run := hcmd
      rfl
    rw [shellLoop, commandLoop_ok h, heq, execCommand_run hcmd, hacc.sendProg_eq, hcmd]
    rfl

/-- A program is received in one round. -/
theorem round_transfer (h : Means files line (.transfer code pis)) :
    ∃ r, Received r (code, pis) ∧
      Link.Reaches (between files stack (line::lines) (fuel+1) s got)
        (between files stack lines fuel r.s (got ++ [r])) := by
  rw [between, shellLoop_sends h]
  cases h with
  | run h hcmd hacc hlong hhdr hlen =>
    have hmem : (s.copied progAddr 0 code).bytes progAddr code.length = code :=
      copied_bytes progAddr code s (hacc.code_length ▸ BitVec.isLt _).le
    refine ⟨⟨BitVec.ofNat 32 code.length, crc32 code, pis, s.copied progAddr 0 code,
      framed (stack fuel) code⟩, ⟨rfl, rfl, rfl, hmem, ⟨_,rfl⟩⟩, ?_⟩
    have hargs := Link.answers_left (sending_runs files lines (sendArgs_runs ShellOp.run code pis))
      (serverLoop stack (fuel+1) s got)
    have hecho := hargs.trans (Link.answers_right
      (serverLoop_begins (BitVec.ofNat 32 code.length) (crc32 code) hacc.pis_length) _)
    have hsend := sending_runs files lines (sendBytes_runs code pis)
    have hcode := hecho.trans (Link.answers_left hsend _)
    have hrecv := hcode.trans (Link.answers_right (receiving_runs (awaitCode_runs
      (recvBuf_runs (stack fuel) (crc32 code) pis s hacc.code_length hlen hlong hhdr))) _)
    exact hrecv.trans (Link.answers_left (sending_runs files lines awaitDone_runs) _)

theorem InStep.cons {c : Link UInt8 Unit (PiMem × List RunProg)} (h : InStep stack got acts c)
    (hquit : act ≠ .quit) (ht : transfers (act::acts) = transfers acts) :
    InStep stack got (act::acts) c := by
  obtain ⟨hshell,⟨s,new,hnew,hend⟩,hread⟩ := h
  refine ⟨hshell, ⟨s, new, ht ▸ hnew, ?_⟩, hread⟩
  rwa [List.mem_cons, or_iff_right hquit.symm]

theorem InStep.transfer {c : Link UInt8 Unit (PiMem × List RunProg)} {r : RunProg}
    (h : InStep stack (got ++ [r]) acts c) (hr : Received r (code, pis)) :
    InStep stack got (.transfer code pis :: acts) c := by
  obtain ⟨hshell,⟨s,new,hnew,hend⟩,hread⟩ := h
  refine ⟨hshell, ⟨s, r::new, .cons hr hnew, ?_⟩, hread⟩
  rw [List.mem_cons, or_iff_right nofun]
  rwa [List.append_assoc] at hend

/-- The session from the first line to the last. -/
theorem session_runs (h : List.Forall₂ (Means files) lines acts) (hfuel : lines.length < fuel)
    (s : PiMem) (got : List RunProg) :
    ∃ c, InStep stack got acts c ∧ Link.Reaches (between files stack lines fuel s got) c := by
  induction h generalizing fuel s got with
  | nil =>
    obtain ⟨k,rfl⟩ := Nat.exists_eq_add_of_le' hfuel
    refine ⟨_, ⟨rfl, ⟨s, [], .nil, nofun, fun _ => ⟨k,?_⟩⟩, rfl, rfl⟩, .refl⟩
    rw [List.append_nil]
    rfl
  | @cons line act lines acts hline _ ih =>
    rw [List.length_cons] at hfuel
    obtain ⟨k,rfl⟩ := Nat.exists_eq_add_of_le' (Nat.zero_lt_of_lt hfuel)
    cases act with
    | skip =>
      rw [round_skip hline]
      obtain ⟨c,hc,hrun⟩ := ih (Nat.lt_of_succ_lt hfuel) s got
      exact ⟨c, hc.cons nofun rfl, hrun⟩
    | tell op =>
      obtain ⟨c,hc,hrun⟩ := ih (Nat.lt_of_succ_lt_succ hfuel) s got
      exact ⟨c, hc.cons nofun rfl, (round_tell hline).trans hrun⟩
    | quit =>
      refine ⟨_, ⟨rfl, ⟨s, [], .nil, fun _ => ?_, fun hq => ?_⟩, rfl, rfl⟩, round_quit hline⟩
      · rw [List.append_nil]
      · exact absurd List.mem_cons_self hq
    | transfer code pis =>
      obtain ⟨r,hr,hround⟩ := round_transfer hline
      obtain ⟨c,hc,hrun⟩ := ih (Nat.lt_of_succ_lt_succ hfuel) r.s (got ++ [r])
      exact ⟨c, hc.transfer hr, hround.trans hrun⟩

/-- Both loops are reached on a line that the shell can find the Pi on. -/
theorem synchronized_reached {g : List UInt8} {m n : ℕ}
    (hline : g = [] ∧ 0 < m ∨ 5 ≤ m ∧ Quiet g) (hfuel : g.length+m < fuel) (s : PiMem) :
    Link.Reaches ⟨shellMain fuel files lines, serverMain m stack n s, [], g⟩
      (between files stack lines n s []) := by
  have hquiet : Quiet g := by
    rcases hline with ⟨rfl,-⟩ | ⟨-,hquiet⟩
    · exact quiet_nil
    · exact hquiet
  obtain ⟨j,r,hskip,hrest⟩ := exists_skips (hline.imp_right And.left) hquiet
  have hlen := congrArg List.length hrest
  have hjlen := hskip.1
  simp only [List.length_drop, List.length_append, readies_length] at hlen hjlen
  obtain ⟨p,hready,hack⟩ := serverSynchronize_runs m
  have hsend := Link.reaches_right (hready.bind fun _ => serverLoop stack n s [])
    (shellMain fuel files lines) [] g
  have hshell := Link.answers_left ((synchronize_runs hskip hrest (by omega)
    (by omega : r ≤ fuel)).bind fun _ => shellLoop files lines)
    (p >>= fun _ => serverLoop stack n s [])
  have hserver := Link.answers_right (hack.bind fun _ => serverLoop stack n s [])
    (awaitAck (fuel-r) >>= fun _ => shellLoop files lines)
  have hend := Link.answers_left ((awaitAck_runs (by omega : 0 < fuel-r)).bind fun _ =>
    shellLoop files lines) (serverLoop stack n s [])
  exact ((hsend.trans hshell).trans hserver).trans hend

theorem InStep.final {c : Link UInt8 Unit (PiMem × List RunProg)} (h : InStep stack got acts c)
    (t : Link UInt8 Unit (PiMem × List RunProg)) : ¬Link.Step c t := by
  obtain ⟨p,q,xs,ys⟩ := c
  obtain ⟨hp,⟨s,new,-,hq,hnot⟩,hxs,hys⟩ := h
  dsimp only at hp hq hnot hxs hys
  subst hp hxs hys
  apply Link.final_of_idle (Proc.idle_done _)
  by_cases hquit : .quit ∈ acts
  · obtain rfl := hq hquit
    exact Proc.idle_done _
  · obtain ⟨k,rfl⟩ := hnot hquit
    exact (serverLoop_starved _ _ _ _).idle

end Session

/-- Whatever is typed, the shell and the Pi stay in step on every schedule: all programs before
the end of the session arrive, in order, and the Pi ends exactly if it was told to. -/
theorem session_in_step {files : List Char → Option (List UInt8)} {lines : List (List Char)}
    {acts : List LineAct} (h : List.Forall₂ (Means files) lines acts) {fuel m n : ℕ}
    {g : List UInt8} (hline : g = [] ∧ 0 < m ∨ 5 ≤ m ∧ Quiet g) (hfuel : g.length+m < fuel)
    (hlines : lines.length < n) (stack : ℕ → ℕ → UInt8) (s : PiMem) :
    Ends Link.Step (InStep stack [] acts)
      ⟨shellMain fuel files lines, serverMain m stack n s, [], g⟩ := by
  obtain ⟨c,hc,hrun⟩ := session_runs h hlines s []
  exact Ends.of_run Link.step_diamond ((synchronized_reached hline hfuel s).trans hrun) hc.final hc

/-- Some garbage on the line, and then a list of the nodes, a typing error, a program for two
nodes and the end of the session. -/
theorem session_in_step_header :
    Ends Link.Step (InStep (fun _ _ => 0) [] [.tell ShellOp.list, .skip,
        .transfer headerOnly [1,2], .quit])
      ⟨shellMain 8 (headerFiles 0) ["list\n".toList, "lits\n".toList,
        "run prog.bin 1 2\n".toList, "exit\n".toList],
        serverMain 5 (fun _ _ => 0) 5 ⟨fun _ => 0,[]⟩, [], [7,7]⟩ := by
  have hlist : Means (headerFiles 0) "list\n".toList (.tell ShellOp.list) :=
    .list (show parseLine _ = some (.ok ShellOp.list []) by decide)
  have hrun : Means (headerFiles 0) "run prog.bin 1 2\n".toList (.transfer headerOnly [1,2]) :=
    .run (show parseLine _ = some (.ok ShellOp.run runTwo.tokens) by decide) rfl
      (accepted_runTwo 0 (by decide)) (by decide) (by decide) (by decide)
  have hexit : Means (headerFiles 0) "exit\n".toList .quit :=
    .exit (show parseLine _ = some (.ok ShellOp.exit []) by decide)
  have hquiet : Quiet [7,7] := ⟨1, by decide, 0, rfl⟩
  exact session_in_step (.cons hlist (.cons (.error (by decide)) (.cons hrun (.cons hexit .nil))))
    (.inr ⟨by decide, hquiet⟩) (by decide) (by decide) _ _

end DistributedPis
