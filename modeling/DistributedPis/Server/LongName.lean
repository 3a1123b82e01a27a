import DistributedPis.Server.Fat32
import DistributedPis.Server.Utf8

/-! Long file names (`fat32-lfn-helpers.c`). A name is spread over entries in reverse order, 13 code
units in each, and put together in a static array of 512 bytes. -/
namespace DistributedPis
open Library

namespace Dirent

def name1To5 (d : Dirent) : List UInt8 := (d.drop 1).take 10
def name6To11 (d : Dirent) : List UInt8 := (d.drop 14).take 12
def name12To13 (d : Dirent) : List UInt8 := (d.drop 28).take 4
def reserved0 (d : Dirent) : UInt8 := d.getD 12 0

end Dirent

def isAttr (x flag : UInt8) : Bool := if x = 0x0f then x = flag else x &&& flag = flag

def lfnTerminator (lo hi : UInt8) : Bool := lo = 0 ∧ hi = 0 ∨ lo = 0xff ∧ hi = 0xff

/-- `utf8_append` at the end of the text in the static array; `none` when it is full. -/
def utf8Append (buf : List UInt8) : List UInt8 → Option (List UInt8)
  | lo::hi::unicode =>
    if lfnTerminator lo hi then some buf
    else do
      let utf8 ← toUtf8 (lo.toNat ||| hi.toNat <<< 8)
      let buf := buf ++ cstr utf8
      if buf.length < 512 then utf8Append buf unicode else none
  | _ => some buf

def lfnAppend (buf : List UInt8) (l : Dirent) : Option (List UInt8) := do
  if l.isLfn then
    let buf ← utf8Append buf l.name1To5
    let buf ← utf8Append buf l.name6To11
    utf8Append buf l.name12To13
  else none

def lfnGetName (s : List Dirent) : Option (List UInt8) := s.reverse.foldlM lfnAppend []

/-- A character of a short name. -/
def shortChar (lowerCase : Bool) (c : UInt8) : UInt8 :=
  if lowerCase ∧ 65 ≤ c ∧ c ≤ 90 then c+32 else c

/-- `fat32_dir_filename` on the entries from `d` to `end`: the name and how far `d` moves. -/
def fat32DirFilename : List Dirent → Option (List UInt8 × ℕ)
  | [] => none
  | d::ds =>
    if d.free then none
    else if d.attr = 0x0f then
      let cnt := 1 + (ds.takeWhile fun e => e.attr = 0x0f).length
      match (d::ds)[cnt]? with
      | none => none
      | some e =>
        if isAttr e.attr 0x10 ∨ isAttr e.attr 0x20 then
          (lfnGetName ((d::ds).take cnt)).map fun name => (name, cnt)
        else none
    else if isAttr d.attr 0x10 ∨ isAttr d.attr 0x20 ∨ isAttr d.attr 0x08 then
      let lowerCase : Bool := d.reserved0 = 0x18
      some (cstr (((d.filename.take 8).filter (· ≠ 32)).map (shortChar lowerCase) ++
        46 :: (d.filename.drop 8).map (shortChar lowerCase)), 0)
    else none

/-- The code units in a field. -/
def codeUnits : List UInt8 → List ℕ
  | lo::hi::unicode => (lo.toNat ||| hi.toNat <<< 8) :: codeUnits unicode
  | _ => []

/-- The fields of an entry in the order of the name. -/
def Dirent.nameFields (d : Dirent) : List (List UInt8) := [d.name1To5, d.name6To11, d.name12To13]

/-- The entries of a long name, whose units end with terminators only. -/
structure LongName (ds : List Dirent) (name : List ℕ) : Prop where
  lfn : ∀ d ∈ ds, d.isLfn = true
  units : ∃ pad, (∀ u ∈ pad, u = 0 ∨ u = 0xffff) ∧
    (ds.reverse.flatMap fun d => d.nameFields.flatMap codeUnits) = name ++ pad
  chars : ∀ u ∈ name, u ≠ 0 ∧ u ≠ 0xffff

section Append
variable {buf unicode : List UInt8} {lo hi : UInt8} {name pad : List ℕ}

theorem codeUnit_eq (lo hi : UInt8) : lo.toNat ||| hi.toNat <<< 8 = 256*hi.toNat + lo.toNat := by
  rw [Nat.or_comm, Nat.shiftLeft_eq, or_eq_add (j := 8) (by omega) lo.toNat_lt]
  omega

theorem lfnTerminator_iff : lfnTerminator lo hi = true ↔
    lo.toNat ||| hi.toNat <<< 8 = 0 ∨ lo.toNat ||| hi.toNat <<< 8 = 0xffff := by
  have hlo := lo.toNat_lt
  have hhi := hi.toNat_lt
  have hzero : (0 : UInt8).toNat = 0 := rfl
  have hfull : (0xff : UInt8).toNat = 0xff := rfl
  rw [codeUnit_eq]
  simp only [lfnTerminator, ← UInt8.toNat_inj, hzero, hfull, Bool.decide_or, Bool.decide_and,
    Bool.or_eq_true, Bool.and_eq_true, decide_eq_true_eq]
  omega

theorem ofNat_ne_zero {n : ℕ} (h : 0 < n) (h' : n < 256) : UInt8.ofNat n ≠ 0 := by
  intro hz
  have hn := congrArg UInt8.toNat hz
  rw [UInt8.toNat_ofNat', Nat.mod_eq_of_lt h'] at hn
  change n = 0 at hn
  omega

/-- Only zero is encoded with a zero byte. -/
theorem utf8Bytes_ne_zero {cp : ℕ} (h : cp ≠ 0) : ∀ b ∈ utf8Bytes cp, b ≠ 0 := by
  intro b hb
  unfold utf8Bytes at hb
  split at hb
  · rw [List.mem_singleton.mp hb]
    exact ofNat_ne_zero (by omega) (by omega)
  split at hb
  · simp only [List.mem_cons, List.not_mem_nil, or_false] at hb
    rcases hb with rfl | rfl <;> exact ofNat_ne_zero (by omega) (by omega)
  split at hb
  · simp only [List.mem_cons, List.not_mem_nil, or_false] at hb
    rcases hb with rfl | rfl | rfl <;> exact ofNat_ne_zero (by omega) (by omega)
  · simp only [List.mem_cons, List.not_mem_nil, or_false] at hb
    rcases hb with rfl | rfl | rfl | rfl <;> exact ofNat_ne_zero (by omega) (by omega)

theorem cstr_utf8Bytes {cp : ℕ} (h : cp ≠ 0) : cstr (utf8Bytes cp) = utf8Bytes cp :=
  List.takeWhile_eq_self_iff.mpr fun b hb => by simpa using utf8Bytes_ne_zero h b hb

/-- A field is appended up to its first terminator. -/
theorem utf8Append_eq (hbuf : buf.length < 512) (hname : ∀ u ∈ name, u ≠ 0 ∧ u ≠ 0xffff)
    (hpad : ∀ u ∈ pad, u = 0 ∨ u = 0xffff) (hunits : codeUnits unicode = name ++ pad) :
    utf8Append buf unicode =
      if (buf ++ name.flatMap utf8Bytes).length < 512 then some (buf ++ name.flatMap utf8Bytes)
      else none := by
  induction unicode using codeUnits.induct generalizing buf name with
  | case1 lo hi unicode ih =>
    rw [codeUnits] at hunits
    cases name with
    | nil =>
      have hterm := hpad (lo.toNat ||| hi.toNat <<< 8) (by
        rw [List.nil_append] at hunits
        rw [← hunits]
        exact List.mem_cons_self)
      rw [utf8Append, if_pos (lfnTerminator_iff.mpr hterm), List.flatMap_nil, List.append_nil,
        if_pos hbuf]
    | cons u name =>
      rw [List.cons_append] at hunits
      obtain ⟨hu,hrest⟩ := List.cons.inj hunits
      obtain ⟨⟨h0,hfull⟩,hname⟩ := List.forall_mem_cons.mp hname
      have hle : u ≤ 0x10ffff := by
        have hlo := lo.toNat_lt
        have hhi := hi.toNat_lt
        rw [← hu, codeUnit_eq]
        omega
      rw [utf8Append, if_neg (by rw [lfnTerminator_iff, hu]; exact not_or.mpr ⟨h0,hfull⟩), hu,
        toUtf8_eq (Nat.pos_of_ne_zero h0) hle, Option.bind_eq_bind, Option.bind_some,
        cstr_utf8Bytes h0, List.flatMap_cons, ← List.append_assoc]
      by_cases hroom : (buf ++ utf8Bytes u).length < 512
      · rw [if_pos hroom, ih hroom hname hrest]
      · rw [if_neg hroom, if_neg]
        rw [List.length_append]
        omega
  | case2 unicode hshort =>
    have hend : codeUnits unicode = [] ∧ utf8Append buf unicode = some buf := by
      rcases unicode with _ | ⟨lo,_ | ⟨hi,unicode⟩⟩
      · exact ⟨rfl,rfl⟩
      · exact ⟨rfl,rfl⟩
      · exact absurd rfl (hshort lo hi unicode)
    rw [hend.1] at hunits
    obtain ⟨rfl,-⟩ := List.append_eq_nil_iff.mp hunits.symm
    rw [hend.2, List.flatMap_nil, List.append_nil, if_pos hbuf]

/-- The fields of all entries, one after the other. -/
theorem foldlM_utf8Append {fields : List (List UInt8)} (hbuf : buf.length < 512)
    (hname : ∀ u ∈ name, u ≠ 0 ∧ u ≠ 0xffff) (hpad : ∀ u ∈ pad, u = 0 ∨ u = 0xffff)
    (hunits : fields.flatMap codeUnits = name ++ pad) :
    fields.foldlM utf8Append buf =
      if (buf ++ name.flatMap utf8Bytes).length < 512 then some (buf ++ name.flatMap utf8Bytes)
      else none := by
  induction fields generalizing buf name pad with
  | nil =>
    obtain ⟨rfl,-⟩ := List.append_eq_nil_iff.mp hunits.symm
    rw [List.flatMap_nil, List.append_nil, if_pos hbuf]
    rfl
  | cons field fields ih =>
    rw [List.flatMap_cons] at hunits
    rw [List.foldlM_cons]
    -- the name ends behind the field, or within it
    rcases List.append_eq_append_iff.mp hunits with ⟨name',rfl,hrest⟩ | ⟨pad',hfield,rfl⟩
    · obtain ⟨hin,hout⟩ := List.forall_mem_append.mp hname
      have hnone : ∀ u ∈ ([] : List ℕ), u = 0 ∨ u = 0xffff := fun u hu =>
        absurd hu List.not_mem_nil
      rw [utf8Append_eq hbuf hin hnone (List.append_nil _).symm, List.flatMap_append,
        ← List.append_assoc]
      by_cases hroom : (buf ++ (codeUnits field).flatMap utf8Bytes).length < 512
      · rw [if_pos hroom, Option.bind_eq_bind, Option.bind_some, ih hroom hout hpad hrest]
      · rw [if_neg hroom, if_neg]
        · rfl
        · rw [List.length_append]
          omega
    · obtain ⟨hin,hout⟩ := List.forall_mem_append.mp hpad
      rw [utf8Append_eq hbuf hname hin hfield]
      by_cases hroom : (buf ++ name.flatMap utf8Bytes).length < 512
      · have hnone : ∀ u ∈ ([] : List ℕ), u ≠ 0 ∧ u ≠ 0xffff := fun u hu =>
          absurd hu List.not_mem_nil
        have hdone := ih hroom hnone hout rfl
        rw [List.flatMap_nil, List.append_nil, if_pos hroom] at hdone
        rw [if_pos hroom, Option.bind_eq_bind, Option.bind_some, hdone]
      · rw [if_neg hroom]
        rfl

end Append

section Names
variable {long rest : List Dirent} {short : Dirent} {name : List ℕ}

/-- Entries are appended field by field. -/
theorem foldlM_lfnAppend {ds : List Dirent} (h : ∀ d ∈ ds, d.isLfn = true) (buf : List UInt8) :
    ds.foldlM lfnAppend buf = (ds.flatMap Dirent.nameFields).foldlM utf8Append buf := by
  induction ds generalizing buf with
  | nil => rfl
  | cons d ds ih =>
    obtain ⟨hd,hds⟩ := List.forall_mem_cons.mp h
    have happ : lfnAppend buf d = d.nameFields.foldlM utf8Append buf := by
      rw [lfnAppend, if_pos hd]
      simp [Dirent.nameFields]
    rw [List.foldlM_cons, List.flatMap_cons, List.foldlM_append, happ]
    congr 1
    funext buf'
    exact ih hds buf'

/-- The name of a row of entries, if there is room for it. -/
theorem lfnGetName_eq (h : LongName long name) : lfnGetName long =
    if (name.flatMap utf8Bytes).length < 512 then some (name.flatMap utf8Bytes) else none := by
  obtain ⟨pad,hpad,hunits⟩ := h.units
  rw [← List.flatMap_assoc] at hunits
  have hempty : ([] : List UInt8).length < 512 := by simp
  rw [lfnGetName, foldlM_lfnAppend fun d hd => h.lfn d (List.mem_reverse.mp hd),
    foldlM_utf8Append hempty h.chars hpad hunits, List.nil_append]

end Names

/-- A long name in front of a short one is put together exactly if it has less than 512 bytes. -/
theorem fat32DirFilename_long {d short : Dirent} {ds rest : List Dirent} {name : List ℕ}
    (h : LongName (d::ds) name) (hfree : d.free = false)
    (hshort : isAttr short.attr 0x10 = true ∨ isAttr short.attr 0x20 = true) :
    fat32DirFilename (d::ds ++ short::rest) =
      if (name.flatMap utf8Bytes).length < 512 then some (name.flatMap utf8Bytes, (d::ds).length)
      else none := by
  obtain ⟨hd,hds⟩ := List.forall_mem_cons.mp h.lfn
  have hlfn : ∀ e : Dirent, e.isLfn = true ↔ e.attr = 0x0f := fun e => decide_eq_true_iff
  have hne : short.attr ≠ 0x0f := by
    intro hs
    rw [hs] at hshort
    revert hshort
    decide
  have htake : (ds ++ short::rest).takeWhile (fun e => e.attr = 0x0f) = ds := by
    rw [List.takeWhile_append_of_pos fun e he => by simpa using (hlfn e).mp (hds e he),
      List.takeWhile_cons_of_neg (by simpa using hne), List.append_nil]
  have hcnt : 1 + ds.length = (d::ds).length := by
    rw [List.length_cons, Nat.add_comm]
  have hnext : (d::ds ++ short::rest)[(d::ds).length]? = some short := by simp
  rw [List.cons_append, fat32DirFilename, if_neg (by simp [hfree]), if_pos ((hlfn d).mp hd)]
  simp only [htake]
  rw [hcnt, ← List.cons_append, hnext]
  dsimp only
  rw [if_pos hshort, List.take_left, lfnGetName_eq h]
  split
  · rfl
  · rfl

/-- A name of two characters, the second one the euro sign. -/
def euroEntry : Dirent :=
  [0x41, 0x61,0, 0xac,0x20, 0,0, 0xff,0xff, 0xff,0xff, 0x0f, 0, 7] ++ List.replicate 12 0xff ++
    [0,0] ++ List.replicate 4 0xff

theorem fat32DirFilename_long_euro :
    fat32DirFilename ([euroEntry] ++ [List.replicate 11 65 ++ [0x20]]) =
      if ([0x61,0x20ac].flatMap utf8Bytes).length < 512 then
        some ([0x61,0x20ac].flatMap utf8Bytes, [euroEntry].length)
      else none :=
  fat32DirFilename_long
    ⟨by decide, ⟨0 :: List.replicate 10 0xffff, by decide, by decide⟩, by decide⟩
    (by decide) (.inr (by decide))

end DistributedPis
