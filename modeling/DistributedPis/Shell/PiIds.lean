import DistributedPis.Shell.SendProg

/-! The ids of the nodes on the line of `send_prog`. They are compared with 0xF after `atoi` has
been cut to a byte, so that ids far outside of the range pass. -/
namespace DistributedPis
open Library

def ShellCommand.ids (cmd : ShellCommand) : List (List Char) := cmd.tokens.tail

/-- The word stands for a node. -/
def IsPiId (id : List Char) : Prop := 0 ≤ atoi id ∧ atoi id ≤ 15

/-- If `send_prog` sends anything, every id stands for a node, and behind the four words of the
header it sends these ids and waits. -/
def SendsIds (files : List Char → Option (List UInt8)) (cmd : ShellCommand) : Prop :=
  ∀ i o p, (sendProg files cmd).Runs i o p → o ≠ [] →
    (∀ id ∈ cmd.ids, IsPiId id) ∧
      ∃ header bs q, header.length = 16 ∧ (sendProg files cmd).Runs [] (header ++ bs) q ∧
        q.Starved ∧ bs.map (fun b => (b.toNat : ℤ)) = cmd.ids.map atoi

/-- When the file can be read and there are ids, they all stand for nodes or one of them is above
15 as a byte. -/
def IdsTold (files : List Char → Option (List UInt8)) (cmd : ShellCommand) : Prop :=
  ∀ prog content, cmd.tokens.head? = some prog → cmd.ids ≠ [] → files prog = some content →
    (∀ id ∈ cmd.ids, IsPiId id) ∨ ∃ id ∈ cmd.ids, 15 < atoi id % 256

section Ids
variable {files : List Char → Option (List UInt8)} {cmd : ShellCommand} {code pis : List UInt8}
  {id : List Char}

theorem piId_toNat (id : List Char) : ((piId id).toNat : ℤ) = atoi id % 256 := by
  rw [piId, UInt8.toNat_ofNat']
  omega

theorem piId_le : piId id ≤ 0xF ↔ atoi id % 256 ≤ 15 := by
  rw [UInt8.le_iff_toNat_le, ← piId_toNat]
  exact Nat.cast_le.symm

/-- The byte of a node's id is the id. -/
theorem IsPiId.toNat (h : IsPiId id) : ((piId id).toNat : ℤ) = atoi id := by
  obtain ⟨hlo,hhi⟩ := h
  rw [piId_toNat]
  omega

theorem done_silent {α β : Type} {a : α} {i o : List β} {p : Proc β α}
    (h : (Proc.done a).Runs i o p) : o = [] := by
  cases h
  rfl

theorem fail_silent {α β : Type} {i o : List β} {p : Proc β α}
    (h : (Proc.fail : Proc β α).Runs i o p) : o = [] := by
  cases h
  rfl

/-- Either the command is sent, or nothing is; then no file is read, or some id is too large. -/
theorem sendProg_cases (files : List Char → Option (List UInt8)) (cmd : ShellCommand) :
    (∃ code, Accepted files cmd code (cmd.ids.map piId)) ∨
      ((∀ i o p, (sendProg files cmd).Runs i o p → o = []) ∧
        ∀ prog content, cmd.tokens.head? = some prog → cmd.ids ≠ [] → files prog = some content →
          ∃ id ∈ cmd.ids, 15 < atoi id % 256) := by
  rcases htok : cmd.tokens with _ | ⟨prog, _ | ⟨id,ids⟩⟩
  · refine .inr ⟨fun i o p h => ?_, fun _ _ hhead => by cases hhead⟩
    rw [sendProg, htok] at h
    exact done_silent h
  · refine .inr ⟨fun i o p h => ?_, fun _ _ _ hids => ?_⟩
    · rw [sendProg, htok] at h
      exact done_silent h
    · rw [ShellCommand.ids, htok] at hids
      exact absurd rfl hids
  · have hids : cmd.ids = id::ids := by rw [ShellCommand.ids, htok, List.tail_cons]
    rcases hfile : files prog with _ | content
    · refine .inr ⟨fun i o p h => ?_, fun prog' content hhead _ hcontent => ?_⟩
      · rw [sendProg, htok] at h
        dsimp only at h
        rw [hfile] at h
        exact fail_silent h
      · obtain rfl : prog = prog' := Option.some.inj hhead
        rw [hfile] at hcontent
        cases hcontent
    · by_cases hbad : ∃ b ∈ (id::ids).map piId, 0xF < b
      · refine .inr ⟨fun i o p h => ?_, fun _ _ _ _ _ => ?_⟩
        · rw [sendProg, htok] at h
          dsimp only at h
          rw [hfile] at h
          dsimp only at h
          rw [if_pos hbad] at h
          exact done_silent h
        · obtain ⟨b,hb,hlt⟩ := hbad
          obtain ⟨x,hx,rfl⟩ := List.mem_map.mp hb
          refine ⟨x, hids ▸ hx, ?_⟩
          have hnot := mt piId_le.mpr (UInt8.not_le.mpr hlt)
          omega
      · refine .inl ⟨readFile content, ⟨prog, id::ids, content, htok, List.cons_ne_nil _ _, hfile,
          rfl, by rw [hids]⟩, fun b hb => ?_⟩
        rw [hids] at hb
        by_contra hle
        exact hbad ⟨b, hb, UInt8.not_le.mp hle⟩

/-- What an accepted command sends before it waits. -/
theorem Accepted.burst (h : Accepted files cmd code pis) :
    ∃ header q, header.length = 16 ∧ (sendProg files cmd).Runs [] (header ++ pis) q ∧
      q.Starved := by
  refine ⟨wordBytes cmd.command ++ (wordBytes (BitVec.ofNat 32 code.length) ++
    (wordBytes (crc32 code) ++ wordBytes (BitVec.ofNat 32 pis.length))), sendBytes code pis,
    rfl, ?_, getUint32_starved _⟩
  rw [h.sendProg_eq]
  simpa only [List.append_assoc] using sendArgs_runs cmd.command code pis

end Ids

/-- `send_prog` checks its ids exactly if none of them that is out of range has a byte within it. -/
theorem sendsIds_iff (files : List Char → Option (List UInt8)) (cmd : ShellCommand) :
    SendsIds files cmd ↔ IdsTold files cmd := by
  rcases sendProg_cases files cmd with ⟨code,hacc⟩ | ⟨hsilent,htold⟩
  · obtain ⟨header,q,hlen,hruns,hstarved⟩ := hacc.burst
    have hlow : ∀ id ∈ cmd.ids, atoi id % 256 ≤ 15 := fun id hid =>
      piId_le.mp (hacc.low _ (List.mem_map_of_mem hid))
    constructor
    · intro h prog content _ _ _
      have hne : header ++ cmd.ids.map piId ≠ [] := by
        intro hnil
        rw [(List.append_eq_nil_iff.mp hnil).1] at hlen
        cases hlen
      exact .inl (h _ _ _ hruns hne).1
    · intro h i o p _ _
      obtain ⟨prog,ids,content,htok,hids,hfile,_,_⟩ := hacc.parts
      have htail : cmd.ids = ids := by rw [ShellCommand.ids, htok, List.tail_cons]
      rcases h prog content (by rw [htok]; rfl) (htail ▸ hids) hfile with hvalid |
        ⟨id,hid,hhigh⟩
      · refine ⟨hvalid, header, _, q, hlen, hruns, hstarved, ?_⟩
        rw [List.map_map]
        exact List.map_congr_left fun id hid => (hvalid id hid).toNat
      · exact absurd (hlow id hid) (Int.not_le.mpr hhigh)
  · refine iff_of_true (fun i o p h hne => absurd (hsilent i o p h) hne) ?_
    exact fun prog content hhead hids hfile => .inr (htold prog content hhead hids hfile)

/-- `run prog.bin 256`. -/
def run256 : ShellCommand := ⟨ShellOp.run, ["prog.bin".toList, ['2','5','6']], by decide⟩

/-- The word 256 addresses node 0. -/
theorem run256_sent :
    atoi ['2','5','6'] = 256 ∧ piId ['2','5','6'] = 0 ∧ Accepted (headerFiles 0) run256
      (readFile (headerOnly ++ List.replicate 0 0)) [0] ∧ ¬SendsIds (headerFiles 0) run256 := by
  have hacc : Accepted (headerFiles 0) run256 (readFile (headerOnly ++ List.replicate 0 0)) [0] :=
    ⟨⟨_, [['2','5','6']], _, rfl, List.cons_ne_nil _ _, rfl, rfl, by decide⟩,
      List.forall_mem_singleton.mpr (by decide)⟩
  refine ⟨by decide, by decide, hacc, fun h => ?_⟩
  obtain ⟨header,q,_,hruns,_⟩ := hacc.burst
  have hne : header ++ [0] ≠ [] := List.append_ne_nil_of_right_ne_nil _ (List.cons_ne_nil _ _)
  obtain ⟨_,hle⟩ := (h _ _ _ hruns hne).1 ['2','5','6'] (List.mem_singleton_self _)
  exact absurd hle (by decide)

end DistributedPis
