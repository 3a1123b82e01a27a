import DistributedPis.Server.JobTransfer

/-! The client's Pi of the shell (`notmain` in `shell/client/client.c`), which waits for programs that
`run_prog` sends on to it. Its buffer is five bytes longer than what follows the start sequence in an
array of `run_prog`, so that it reads into the next one and then waits for the one behind that. -/
namespace DistributedPis
open Library

/-- What `sw_uart_gets` has not read of the line when it returns `n`. -/
def getsRest (start line : List UInt8) (buflen n : ℕ) : List UInt8 :=
  ((findStart start 0 line).getD []).drop (if n < buflen-1 then n+1 else n)

/-- The programs that are started, each with what else is in the buffer. `mem i` is what is in
memory in round `i`; the fuel is a bound on the rounds. The loop ends where the client waits for
ever, and where it finds no header. -/
def clientLoop (mem : ℕ → ℕ → UInt8) : (fuel i : ℕ) → List UInt8 → List (List UInt8)
  | 0, _, _ => []
  | fuel+1, i, line =>
    match swUartGets line startSeq stopSeq (mem i) 8000 with
    | none => []
    | some (n, buf) =>
      if HasHeader (bufBytes 8000 buf) then
        bufBytes 8000 buf :: clientLoop mem fuel (i+1) (getsRest startSeq line 8000 n)
      else []

/-- The elements at even places that have another one behind them. -/
def everyOther {α : Type} : List α → List α
  | a::_::as => a :: everyOther as
  | _ => []

/-- Nothing in the array looks like a marker. -/
structure Plain (frame : List UInt8) : Prop where
  stop : ¬[58,69,78,58] <:+: frame
  start : BrokenOff startSeq (frame.drop 5)

/-- `run_prog` sends its array when the program fits and has a header. -/
structure Sendable (stack : ℕ → UInt8) (code : List UInt8) : Prop where
  long : 12 ≤ code.length
  fits : code.length ≤ 7990
  header : HasHeader code
  plain : Plain (framed stack code)

theorem Plain.no_stop {frame : List UInt8} (h : Plain frame) :
    ¬[58,69,78,58] <:+: frame.drop 6 := fun hin =>
  h.stop (hin.trans (List.drop_suffix 6 _).isInfix)

section Gets
variable {buf : ℕ → UInt8} {buflen : ℕ} {stop pre line tail p q : List UInt8} {c : UInt8}

/-- A stop is only ever found behind `:EN`. -/
theorem infix_of_atStop (h : AtStop stopSeq (stored buf p) p.length c) :
    [58,69,78,58] <:+: p ++ [c] := by
  obtain ⟨rfl,⟨q,rfl⟩,-⟩ := (atStop_iff buf p c).mp h
  exact ⟨q, [], by simp⟩

/-- What breaks off is skipped. -/
theorem marked_skip {start : List UInt8} (hpre : BrokenOff start pre) :
    Marked start (pre ++ line) tail ↔ Marked start line tail := by
  obtain ⟨tries,htries,rfl⟩ := hpre
  induction tries with
  | nil => rfl
  | cons t tries ih =>
    obtain ⟨⟨hi,hc⟩,hrest⟩ := List.forall_mem_cons.mp htries
    rw [List.flatMap_cons, List.append_assoc, List.append_assoc, List.singleton_append,
      marked_broken hi hc, ih hrest]

/-- There is no start sequence on the line yet. -/
theorem swUartGets_silent (hpre : BrokenOff startSeq pre) :
    swUartGets pre startSeq stopSeq buf buflen = none := by
  rw [swUartGets, Option.bind_eq_none_iff]
  intro tail htail
  have hmarked : Marked startSeq (pre ++ []) tail := by
    rw [List.append_nil]
    exact (findStart_iff (by decide)).mp htail
  exact absurd ((marked_skip hpre).mp hmarked) (marked_short (by decide))

/-- The loop waits on a line that neither fills the buffer nor has a stop. -/
theorem readUntil_waits (hline : q.length + line.length < buflen-1)
    (hno : ∀ p c, p ++ [c] <+: line → ¬AtStop stop (stored buf (q ++ p)) (q ++ p).length c) :
    readUntil stop buflen q.length (stored buf q) line = none := by
  induction line generalizing q with
  | nil =>
    rw [readUntil]
    exact if_pos hline
  | cons c line ih =>
    rw [List.length_cons] at hline
    have hgo := hno [] c ⟨line,rfl⟩
    rw [List.append_nil] at hgo
    rw [readUntil_go (by omega) hgo]
    refine ih (by simp; omega) fun p d hp => ?_
    rw [List.append_assoc, List.singleton_append]
    exact hno (c::p) d (List.cons_prefix_cons.mpr ⟨rfl,hp⟩)

/-- A call that finds the start sequence and then waits. -/
theorem swUartGets_waits (hpre : BrokenOff startSeq pre) (hline : tail.length < buflen-1)
    (hno : ¬[58,69,78,58] <:+: tail) :
    swUartGets (pre ++ startSeq ++ tail) startSeq stopSeq buf buflen = none := by
  have hfind : findStart startSeq 0 (pre ++ startSeq ++ tail) = some tail :=
    (findStart_iff (by decide)).mpr (marked_iff.mpr ⟨pre, hpre, rfl⟩)
  rw [swUartGets, hfind, Option.bind_some]
  refine readUntil_waits (q := []) (by simpa using hline) fun p c hp hstop => hno ?_
  exact (infix_of_atStop hstop).trans hp.isInfix

/-- The loop reads on until the buffer is full. -/
theorem readUntil_fills (hp : q.length + p.length = buflen-1)
    (hno : ∀ p' c, p' ++ [c] <+: p → ¬AtStop stop (stored buf (q ++ p')) (q ++ p').length c) :
    readUntil stop buflen q.length (stored buf q) (p ++ tail) =
      some (buflen-1, Function.update (stored buf (q ++ p)) (buflen-1) 0) := by
  induction p generalizing q with
  | nil =>
    rw [List.length_nil, Nat.add_zero] at hp
    rw [List.nil_append, List.append_nil, ← hp]
    cases tail with
    | nil =>
      rw [readUntil]
      exact if_neg (by omega)
    | cons c tail =>
      rw [readUntil]
      exact if_neg (by omega)
  | cons c p ih =>
    rw [List.length_cons] at hp
    have hgo := hno [] c ⟨p,rfl⟩
    rw [List.append_nil] at hgo
    rw [List.cons_append, readUntil_go (by omega) hgo, ih (by simp; omega), List.append_assoc,
      List.singleton_append]
    intro p' d hp'
    rw [List.append_assoc, List.singleton_append]
    exact hno (c::p') d (List.cons_prefix_cons.mpr ⟨rfl,hp'⟩)

/-- A call that reads until its buffer is full. -/
theorem swUartGets_fills (hpre : BrokenOff startSeq pre) (hp : p.length = buflen-1)
    (hno : ¬[58,69,78,58] <:+: p) :
    swUartGets (pre ++ startSeq ++ (p ++ tail)) startSeq stopSeq buf buflen =
      some (buflen-1, Function.update (stored buf p) (buflen-1) 0) ∧
    getsRest startSeq (pre ++ startSeq ++ (p ++ tail)) buflen (buflen-1) = tail := by
  have hfind : findStart startSeq 0 (pre ++ startSeq ++ (p ++ tail)) = some (p ++ tail) :=
    (findStart_iff (by decide)).mpr (marked_iff.mpr ⟨pre, hpre, rfl⟩)
  constructor
  · rw [swUartGets, hfind, Option.bind_some]
    refine readUntil_fills (q := []) (by simpa using hp) fun p' c hp' hstop => hno ?_
    exact (infix_of_atStop hstop).trans hp'.isInfix
  · rw [getsRest, hfind, if_neg (by omega), Option.getD_some, ← hp]
    exact List.drop_left
end Gets

section Frames
variable {stack : ℕ → UInt8} {code body pre rest : List UInt8} {buf : ℕ → UInt8}

theorem framed_start (stack : ℕ → UInt8) (code : List UInt8) :
    framed stack code = startSeq ++ (framed stack code).drop 6 := by
  have htake : (framed stack code).take 6 = startSeq := by
    rw [framed, List.append_assoc, List.append_assoc]
    rfl
  rw [← htake, List.take_append_drop]

theorem framed_length (h : code.length ≤ 7990) : ((framed stack code).drop 6).length = 7994 := by
  have hsix : (chars "START:").length = 6 := rfl
  have hfour : (chars ":END").length = 4 := rfl
  simp only [framed, List.length_append, List.length_drop, uninit, List.length_map,
    List.length_range, bufSize, hsix, hfour]
  omega

/-- The marker ends with a colon. -/
theorem not_infix_append {l : List UInt8} (hl : 58 ∉ l) (h : ¬[58,69,78,58] <:+: body) :
    ¬[58,69,78,58] <:+: body ++ l := by
  induction l using List.reverseRecOn with
  | nil => rwa [List.append_nil]
  | append_singleton l c ih =>
    rw [List.mem_append, List.mem_singleton, not_or] at hl
    rw [← List.append_assoc, List.infix_concat_iff, not_or]
    refine ⟨?_, ih hl.1⟩
    rintro ⟨q,hq⟩
    have hlast := congrArg List.getLast? hq
    simp at hlast
    exact hl.2 hlast

/-- No attempt at the start sequence goes beyond its first byte. -/
theorem brokenOff_of_not_mem (h : 83 ∉ pre) : BrokenOff startSeq pre := by
  refine ⟨pre.map fun c => (0,c), fun t ht => ?_, ?_⟩
  · obtain ⟨c,hc,rfl⟩ := List.mem_map.mp ht
    refine ⟨Nat.zero_lt_succ 5, fun hfirst => h ?_⟩
    rwa [Option.some.inj hfirst]
  · simp [List.flatMap_map]

/-- An array without the letters of the markers. -/
theorem plain_of_letters (hcode : ∀ c ∈ code, c ≠ 83 ∧ c ≠ 78)
    (hstack : ∀ k, stack k ≠ 83 ∧ stack k ≠ 58) : Plain (framed stack code) := by
  have hrest : ∀ c ∈ (uninit stack bufSize).drop (10+code.length), c ≠ 83 ∧ c ≠ 58 := by
    intro c hc
    obtain ⟨k,-,rfl⟩ := List.mem_map.mp (List.mem_of_mem_drop hc)
    exact hstack k
  have hframe : framed stack code = chars "START:" ++ code ++ [58,69] ++
      ([78,68] ++ (uninit stack bufSize).drop (10+code.length)) := by
    rw [framed]
    simp [chars]
  constructor
  · rw [hframe]
    refine not_infix_append ?_ fun hin => ?_
    · rw [List.mem_append, not_or]
      exact ⟨by decide, fun hc => (hrest 58 hc).2 rfl⟩
    · have hmem : (78 : UInt8) ∈ chars "START:" ++ code ++ [58,69] := hin.subset (by decide)
      rw [List.mem_append, List.mem_append] at hmem
      rcases hmem with (hmem | hmem) | hmem
      · exact absurd hmem (by decide)
      · exact (hcode 78 hmem).2 rfl
      · exact absurd hmem (by decide)
  · have hdrop : (framed stack code).drop 5 = [58] ++ code ++ chars ":END" ++
        (uninit stack bufSize).drop (10+code.length) := by
      rw [framed, List.append_assoc, List.append_assoc, List.append_assoc, List.append_assoc]
      rfl
    refine brokenOff_of_not_mem ?_
    rw [hdrop, List.mem_append, List.mem_append, List.mem_append, not_or, not_or, not_or]
    exact ⟨⟨⟨by decide, fun hc => (hcode 83 hc).1 rfl⟩, by decide⟩, fun hc => (hrest 83 hc).1 rfl⟩

/-- What is in the buffer when it is full. -/
theorem bufBytes_full {p : List UInt8} {n : ℕ} (hp : p.length = n) :
    bufBytes (n+1) (Function.update (stored buf p) n 0) = p ++ [0] := by
  rw [bufBytes, List.range_succ, List.map_append]
  congr 1
  · refine List.ext_getElem (by simp [hp]) fun k hk hk' => ?_
    rw [List.length_map, List.length_range] at hk
    rw [List.getElem_map, List.getElem_range, Function.update_of_ne hk.ne, stored_lt]
  · simp

/-- One array is read, and five bytes of the next. -/
theorem framed_round {stack' : ℕ → UInt8} {code' : List UInt8} (hpre : BrokenOff startSeq pre)
    (h : Sendable stack code) :
    swUartGets (pre ++ (framed stack code ++ (framed stack' code' ++ rest))) startSeq stopSeq buf
      8000 = some (7999, Function.update
        (stored buf ((framed stack code).drop 6 ++ startSeq.take 5)) 7999 0) ∧
    getsRest startSeq (pre ++ (framed stack code ++ (framed stack' code' ++ rest))) 8000 7999 =
      (framed stack' code').drop 5 ++ rest := by
  have hnext : framed stack' code' = startSeq.take 5 ++ (framed stack' code').drop 5 := by
    conv_lhs => rw [← List.take_append_drop 5 (framed stack' code'), framed_start]
    rfl
  have hline : pre ++ (framed stack code ++ (framed stack' code' ++ rest)) = pre ++ startSeq ++
      (((framed stack code).drop 6 ++ startSeq.take 5) ++ ((framed stack' code').drop 5 ++ rest)) := by
    conv_lhs => rw [framed_start stack code, hnext]
    simp only [List.append_assoc]
  rw [hline]
  refine swUartGets_fills hpre ?_ (not_infix_append (by decide) h.plain.no_stop)
  rw [List.length_append, framed_length h.fits]
  rfl

end Frames

/-- The client starts every other program, and only when the one behind it is on its way. -/
theorem clientLoop_everyOther (mem : ℕ → ℕ → UInt8) (fuel i : ℕ) (pre : List UInt8)
    (hpre : BrokenOff startSeq pre) (sent : List ((ℕ → UInt8) × List UInt8))
    (hfuel : sent.length ≤ 2*fuel) (h : ∀ f ∈ sent, Sendable f.1 f.2) :
    clientLoop mem fuel i (pre ++ sent.flatMap fun f => framed f.1 f.2) =
      (everyOther sent).map fun f => (framed f.1 f.2).drop 6 ++ startSeq.take 5 ++ [0] := by
  induction fuel generalizing i pre sent with
  | zero =>
    rw [List.eq_nil_of_length_eq_zero (Nat.le_zero.mp hfuel)]
    rfl
  | succ fuel ih =>
    rcases sent with _ | ⟨f,_ | ⟨g,sent⟩⟩
    · rw [List.flatMap_nil, List.append_nil, clientLoop, swUartGets_silent hpre]
      rfl
    · have hf := h f (List.mem_singleton_self f)
      rw [List.flatMap_singleton, framed_start, ← List.append_assoc, clientLoop,
        swUartGets_waits hpre (by rw [framed_length hf.fits]; omega) hf.plain.no_stop]
      rfl
    · have hf := h f List.mem_cons_self
      have hg := h g (List.mem_cons_of_mem f List.mem_cons_self)
      obtain ⟨hgets,hline⟩ := @framed_round f.1 f.2 pre
        (sent.flatMap fun f => framed f.1 f.2) (mem i) g.1 g.2 hpre hf
      have hfull : bufBytes 8000 (Function.update
          (stored (mem i) ((framed f.1 f.2).drop 6 ++ startSeq.take 5)) 7999 0) =
          (framed f.1 f.2).drop 6 ++ startSeq.take 5 ++ [0] := by
        refine bufBytes_full ?_
        rw [List.length_append, framed_length hf.fits]
        rfl
      have hhdr : HasHeader ((framed f.1 f.2).drop 6 ++ startSeq.take 5 ++ [0]) := by
        rw [List.append_assoc]
        exact hasHeader_of_start (by rw [framed_length hf.fits]; omega)
          (List.prefix_append _ _) (framed_header hf.long hf.header)
      have hnext := ih (i+1) _ hg.plain.start sent (by simp at hfuel; omega)
        fun f hmem => h f (List.mem_cons_of_mem _ (List.mem_cons_of_mem _ hmem))
      rw [List.flatMap_cons, List.flatMap_cons, clientLoop, hgets]
      dsimp only
      rw [hfull, if_pos hhdr, hline, hnext]
      rfl

/-- Of two programs of only a header, the first one is started. -/
theorem clientLoop_everyOther_headers :
    let f : (ℕ → UInt8) × List UInt8 :=
      (fun _ => 7, [0x78,0x56,0x34,0x12, 0,0,0,0, 0,0,0x08,0])
    clientLoop (fun _ _ => 0) 1 0 ([] ++ [f,f].flatMap fun f => framed f.1 f.2) =
      (everyOther [f,f]).map fun f => (framed f.1 f.2).drop 6 ++ startSeq.take 5 ++ [0] := by
  intro f
  refine clientLoop_everyOther _ 1 0 [] ⟨[], by decide, rfl⟩ [f,f] (by decide) fun g hg => ?_
  have hf : Sendable f.1 f.2 := ⟨le_rfl, by simp [f], by decide,
    plain_of_letters (by simp [f]) fun _ => (show (7 : UInt8) ≠ 83 ∧ (7 : UInt8) ≠ 58 by decide)⟩
  rcases List.mem_pair.mp hg with rfl | rfl
  · exact hf
  · exact hf

end DistributedPis
