import DistributedPis.Server.SwUart
import DistributedPis.Shell.RunProg

/-! A job on its way from the server's Pi to the client's (`notmain` in `server.c` and `client.c`).
The client's test for the stop sequence looks at a stale byte, so that the call of `sw_uart_gets`
as a rule ends when the buffer is full. The job is delivered all the same, unless the stale bytes
let it end within the job. -/
namespace DistributedPis
open Library

/-- The array that the server sends; `stack` is what is in it before. -/
def jobMessage (stack : ℕ → UInt8) (job : List UInt8) : Option (List UInt8) := do
  let message ← memcpyAt (uninit stack 4096) 0 (chars "START:")
  let message ← memcpyAt message 6 job
  memcpyAt message (6+job.length) (chars ":END")

/-- The message is sent three times. -/
def jobLine (message : List UInt8) : List UInt8 := (List.replicate 3 message).flatten

/-- The `n` bytes of a buffer. -/
def bufBytes (n : ℕ) (buf : ℕ → UInt8) : List UInt8 := (List.range n).map buf

/-- The client copies the 4096 bytes of its buffer to where the job runs. There is no result while
it waits, and none when it finds no header. -/
def clientJob (line : List UInt8) (buf : ℕ → UInt8) : Option (List UInt8) :=
  (swUartGets line startSeq stopSeq buf 4095).bind fun r =>
    if HasHeader (bufBytes 4096 r.2) then some (bufBytes 4096 r.2) else none

section Gets
variable {stop line q : List UInt8} {buflen : ℕ} {buf : ℕ → UInt8}

/-- With the bytes `q` stored, the loop ends behind `p` more of the line: at the end of the buffer or
where it finds its stop, and not before. -/
structure EndsBehind (stop : List UInt8) (buflen : ℕ) (buf : ℕ → UInt8) (q p line : List UInt8) :
    Prop where
  start : p <+: line
  first : ∀ p' c, p' ++ [c] <+: p → ¬AtStop stop (stored buf (q ++ p')) (q ++ p').length c
  last : (q ++ p).length = buflen-1 ∨
    ∃ c, p ++ [c] <+: line ∧ AtStop stop (stored buf (q ++ p)) (q ++ p).length c

/-- A line that fills the buffer lets the loop end. -/
theorem readUntil_ends (hline : buflen-1 ≤ q.length + line.length) (hq : q.length ≤ buflen-1) :
    ∃ p, EndsBehind stop buflen buf q p line ∧
      readUntil stop buflen q.length (stored buf q) line = some ((q ++ p).length,
        Function.update (stored buf (q ++ p)) (q ++ p).length 0) := by
  induction line generalizing q with
  | nil =>
    rw [List.length_nil] at hline
    refine ⟨[], ⟨⟨[],rfl⟩, fun p' c h => by simp at h, .inl ?_⟩, ?_⟩
    · rw [List.append_nil]
      omega
    · rw [readUntil, if_neg (by omega), List.append_nil]
  | cons c line ih =>
    rw [List.length_cons] at hline
    by_cases hroom : q.length < buflen-1
    · by_cases hstop : AtStop stop (stored buf q) q.length c
      · refine ⟨[], ⟨⟨_,rfl⟩, fun p' c h => by simp at h, .inr ⟨c, ⟨line,rfl⟩, ?_⟩⟩, ?_⟩
        · rwa [List.append_nil]
        · rw [readUntil, if_pos hroom, if_pos hstop, List.append_nil]
      · obtain ⟨p,⟨hstart,hfirst,hlast⟩,hrun⟩ :=
          ih (q := q ++ [c]) (by simp; omega) (by simp; omega)
        have happ (l : List UInt8) : q ++ [c] ++ l = q ++ c::l := by simp
        simp only [happ] at hfirst hlast hrun
        refine ⟨c::p, ⟨List.cons_prefix_cons.mpr ⟨rfl,hstart⟩, fun p' d hp => ?_, ?_⟩, ?_⟩
        · cases p' with
          | nil =>
            obtain ⟨rfl,-⟩ := List.cons_prefix_cons.mp hp
            rwa [List.append_nil]
          | cons e p' =>
            obtain ⟨rfl,htail⟩ := List.cons_prefix_cons.mp hp
            exact hfirst p' d htail
        · rcases hlast with hfull | ⟨d,hd,hstop⟩
          · exact .inl hfull
          · exact .inr ⟨d, List.cons_prefix_cons.mpr ⟨rfl,hd⟩, hstop⟩
        · rw [readUntil_go hroom hstop, hrun]
    · refine ⟨[], ⟨⟨_,rfl⟩, fun p' c h => by simp at h, .inl ?_⟩, ?_⟩
      · rw [List.append_nil]
        omega
      · rw [readUntil, if_neg hroom, List.append_nil]

/-- A call on a line on which the start sequence is found and enough follows. -/
theorem swUartGets_ends {pre tail : List UInt8} (hpre : BrokenOff startSeq pre)
    (htail : buflen-1 ≤ tail.length) :
    ∃ p, EndsBehind stopSeq buflen buf [] p tail ∧
      swUartGets (pre ++ startSeq ++ tail) startSeq stopSeq buf buflen = some (p.length,
        Function.update (stored buf p) p.length 0) := by
  have hfind : findStart startSeq 0 (pre ++ startSeq ++ tail) = some tail :=
    (findStart_iff (by decide)).mpr (marked_iff.mpr ⟨pre, hpre, rfl⟩)
  obtain ⟨p,hp,hrun⟩ := @readUntil_ends stopSeq tail [] buflen buf
    (by simpa using htail) (Nat.zero_le _)
  exact ⟨p, hp, by rw [swUartGets, hfind]; exact hrun⟩

end Gets

section Job
variable {stack : ℕ → UInt8} {buf : ℕ → UInt8} {pre job : List UInt8}

/-- What is behind the start sequence. -/
def jobRoom (stack : ℕ → UInt8) : List UInt8 := (uninit stack 4096).drop 6

@[simp] theorem jobRoom_length (stack : ℕ → UInt8) : (jobRoom stack).length = 4090 := by
  simp [jobRoom, uninit]

theorem jobMessage_start (stack : ℕ → UInt8) :
    memcpyAt (uninit stack 4096) 0 (chars "START:") = some (startSeq ++ jobRoom stack) := by
  have hlen : (chars "START:").length = 6 := rfl
  rw [memcpyAt, if_pos (by rw [hlen]; simp [uninit]), List.take_zero, List.nil_append, hlen,
    Nat.zero_add, jobRoom]
  rfl

/-- The job is framed if there is room for it. -/
theorem jobMessage_eq (stack : ℕ → UInt8) (hlen : job.length ≤ 4086) : jobMessage stack job =
    some (startSeq ++ job ++ stopSeq ++ (jobRoom stack).drop (job.length+4)) := by
  have hstart := jobMessage_start stack
  have hjob : memcpyAt (startSeq ++ jobRoom stack) 6 job =
      some (startSeq ++ job ++ (jobRoom stack).drop job.length) :=
    memcpyAt_append (by rw [jobRoom_length]; omega)
  have hstop : memcpyAt (startSeq ++ job ++ (jobRoom stack).drop job.length) (6+job.length)
      (chars ":END") = some (startSeq ++ job ++ stopSeq ++ (jobRoom stack).drop (job.length+4)) := by
    have hpos : 6+job.length = (startSeq ++ job).length := by
      rw [List.length_append]
      rfl
    have hroom : (chars ":END").length ≤ ((jobRoom stack).drop job.length).length := by
      rw [List.length_drop, jobRoom_length]
      change 4 ≤ _
      omega
    rw [hpos, memcpyAt_append hroom, List.drop_drop]
    rfl
  rw [jobMessage, hstart]
  exact (congrArg (Option.bind · _) hjob).trans hstop

/-- Without room the array is overrun. -/
theorem jobMessage_none (stack : ℕ → UInt8) (hlen : 4086 < job.length) :
    jobMessage stack job = none := by
  rw [jobMessage, jobMessage_start]
  by_cases hroom : job.length ≤ 4090
  · have hjob : memcpyAt (startSeq ++ jobRoom stack) 6 job =
        some (startSeq ++ job ++ (jobRoom stack).drop job.length) :=
      memcpyAt_append (by rw [jobRoom_length]; omega)
    have hstop : memcpyAt (startSeq ++ job ++ (jobRoom stack).drop job.length) (6+job.length)
        (chars ":END") = none := by
      have hpos : 6+job.length = (startSeq ++ job).length := by
        rw [List.length_append]
        rfl
      have hfour : (chars ":END").length = 4 := rfl
      rw [hpos, memcpyAt_overflow (by rw [List.length_drop, jobRoom_length, hfour]; omega)]
    exact (congrArg (Option.bind · _) hjob).trans hstop
  · have hjob : memcpyAt (startSeq ++ jobRoom stack) 6 job = none :=
      memcpyAt_overflow (by rw [jobRoom_length]; omega)
    exact congrArg (Option.bind · _) hjob

/-- What the client loads begins with the job. -/
def JobDelivered (stack buf : ℕ → UInt8) (pre job : List UInt8) : Prop :=
  ∃ message code, jobMessage stack job = some message ∧
    clientJob (pre ++ jobLine message) buf = some code ∧ job <+: code

variable {p tail : List UInt8}

/-- All of the job is in the buffer, or the loop ends within it. -/
theorem prefix_or_stale (hlen : job.length ≤ 4086)
    (h : EndsBehind stopSeq 4095 buf [] p (job ++ tail)) :
    job <+: p ∨ (p ++ [58] <+: job ∧ StaleStop buf p) := by
  by_cases hle : job.length ≤ p.length
  · exact .inl (List.prefix_of_prefix_length_le (List.prefix_append job tail) h.start hle)
  · rcases h.last with hfull | ⟨c,hc,hstop⟩
    · rw [List.nil_append] at hfull
      omega
    · rw [List.nil_append] at hstop
      obtain ⟨rfl,hstale⟩ := (atStop_iff buf p c).mp hstop
      refine .inr ⟨List.prefix_of_prefix_length_le hc (List.prefix_append job tail) ?_, hstale⟩
      rw [List.length_append, List.length_singleton]
      omega

/-- Where the loop ends, the buffer does not hold the byte that ended it. -/
theorem job_loaded_iff (hlen : job.length ≤ 4086)
    (h : EndsBehind stopSeq 4095 buf [] p (job ++ tail)) :
    job <+: bufBytes 4096 (Function.update (stored buf p) p.length 0) ↔ job <+: p := by
  constructor
  · intro hjob
    rcases prefix_or_stale hlen h with hp | ⟨hp,-⟩
    · exact hp
    · have hlt := hp.length_le
      rw [List.length_append, List.length_singleton] at hlt
      have hget := (hp.getElem (i := p.length) (by simp)).trans (hjob.getElem hlt)
      simp [bufBytes] at hget
  · intro hp
    have hle := hp.length_le
    refine List.prefix_iff_getElem.mpr ⟨by simp [bufBytes]; omega, fun k hk => ?_⟩
    rw [hp.getElem hk]
    simp only [bufBytes, List.getElem_map, List.getElem_range]
    rw [Function.update_of_ne (by omega), stored_lt _ _ (by omega)]

theorem hasHeader_of_start {code : List UInt8} (hlong : 12 ≤ job.length) (h : job <+: code)
    (hhdr : HasHeader job) : HasHeader code := by
  obtain ⟨rest,rfl⟩ := h
  rw [HasHeader, word32_append _ (by omega), word32_append _ (by omega)]
  exact hhdr

/-- The line is long enough to fill the buffer. -/
theorem jobLine_eq {message : List UInt8} (hlen : job.length ≤ 4086)
    (h : jobMessage stack job = some message) : ∃ tail, 4094 ≤ (job ++ tail).length ∧
      jobLine message = startSeq ++ (job ++ tail) := by
  rw [jobMessage_eq stack hlen, Option.some.injEq] at h
  refine ⟨stopSeq ++ (jobRoom stack).drop (job.length+4) ++ message ++ message, ?_, ?_⟩
  · have hsix : startSeq.length = 6 := rfl
    have hfour : stopSeq.length = 4 := rfl
    simp only [← h, List.length_append, List.length_drop, jobRoom_length, hsix, hfour]
    omega
  · rw [← h]
    simp [jobLine, List.replicate]

/-- Whether the loop ends within the job. -/
theorem jobDelivered_iff (hpre : BrokenOff startSeq pre) (hlong : 12 ≤ job.length)
    (hhdr : HasHeader job) : JobDelivered stack buf pre job ↔
      job.length ≤ 4086 ∧ ∀ p', p' ++ [58] <+: job → ¬StaleStop buf p' := by
  by_cases hlen : job.length ≤ 4086
  · rw [and_iff_right hlen]
    obtain ⟨message,hm⟩ : ∃ message, jobMessage stack job = some message :=
      ⟨_, jobMessage_eq stack hlen⟩
    obtain ⟨tail,htail,hline⟩ := jobLine_eq hlen hm
    obtain ⟨p,hp,hgets⟩ := @swUartGets_ends 4095 buf pre (job ++ tail) hpre htail
    rw [List.append_assoc, ← hline] at hgets
    have hloaded := job_loaded_iff hlen hp
    constructor
    · rintro ⟨message',code,hm',hcode,hjob⟩ p' hp' hstale
      rw [hm, Option.some.injEq] at hm'
      rw [← hm', clientJob, hgets, Option.bind_some] at hcode
      split at hcode
      · rw [← Option.some.inj hcode] at hjob
        have hno := hp.first p' 58 (hp'.trans (hloaded.mp hjob))
        rw [List.nil_append, atStop_iff] at hno
        exact hno ⟨rfl, hstale⟩
      · cases hcode
    · intro hno
      have hjob : job <+: p :=
        (prefix_or_stale hlen hp).resolve_right fun h => hno p h.1 h.2
      have hcode := hloaded.mpr hjob
      refine ⟨message, _, hm, ?_, hcode⟩
      rw [clientJob, hgets, Option.bind_some]
      exact if_pos (hasHeader_of_start hlong hcode hhdr)
  · refine iff_of_false ?_ fun h => hlen h.1
    rintro ⟨message,_,hmessage,-⟩
    rw [jobMessage_none stack (Nat.lt_of_not_le hlen)] at hmessage
    cases hmessage

end Job
end DistributedPis
