import DistributedPis.Server.FatDir
import DistributedPis.Server.DirName

/-! Names of new files (`fat32_is_valid_name`, `fat32_dirent_set_name`) and the lookups of the entries
that get them. A name without an extension is stored so that it is converted to another one. -/
namespace DistributedPis
open Library

/-- The test of both loops over a name. -/
def upperOrDigit (c : UInt8) : Bool := 65 ≤ c ∧ c ≤ 90 ∨ 48 ≤ c ∧ c ≤ 57

/-- `fat32_is_valid_name`, on a string without its zero byte. -/
def isValidName (name : List UInt8) : Bool :=
  let n := name.length
  if 46 ∈ name then
    if 12 < n then false
    else if n < 5 then false
    else if name.getD (n-4) 0 ≠ 46 then false
    else (List.range n).all fun i => upperOrDigit (name.getD i 0) ∨ i = n-4
  else if 8 < n then false
  else if n < 1 then false
  else name.all upperOrDigit

/-- The 11 bytes of a name: blanks, and the name or its two parts over them. -/
def rawName (name : List UInt8) : List UInt8 :=
  let n := name.length
  if 46 ∈ name then
    block (fill (fill (fun _ => 32) 0 (name.take (n-4))) 8 ((name.drop (n-3)).take 3)) 0 11
  else block (fill (fun _ => 32) 0 name) 0 11

/-- `fat32_dirent_set_name`; the assertion stops on other names. -/
def Dirent.setName (d : Dirent) (name : List UInt8) : Option Dirent :=
  if isValidName name then some (rawName name ++ d.drop 11) else none

/-- `fat32_dir_lookup` from entry `i` on, by the 11 bytes of a name; `none` for -1. -/
def fat32DirLookup (name : List UInt8) : (i : ℕ) → List Dirent → Option ℕ
  | _, [] => none
  | i, d::ds =>
    if d.free ∨ d.isLfn then fat32DirLookup name (i+1) ds
    else if name = d.filename then some i
    else fat32DirLookup name (i+1) ds

/-- A base of one to eight characters and an extension of three. -/
structure Extended (name base ext : List UInt8) : Prop where
  eq : name = base ++ 46 :: ext
  base_pos : 0 < base.length
  base_le : base.length ≤ 8
  ext_length : ext.length = 3
  chars : ∀ c ∈ base ++ ext, upperOrDigit c = true

/-- One to eight characters. -/
structure Bare (name : List UInt8) : Prop where
  pos : 0 < name.length
  le : name.length ≤ 8
  chars : ∀ c ∈ name, upperOrDigit c = true

section Names
variable {name name' base ext : List UInt8} {c : UInt8}

theorem upperOrDigit_ne (h : upperOrDigit c = true) : c ≠ 46 ∧ c ≠ 32 ∧ c ≠ 0 ∧ c ≠ 0xe5 := by
  refine ⟨?_, ?_, ?_, ?_⟩
  all_goals
    intro hc
    subst hc
    exact absurd h (by decide)

theorem Bare.no_point (h : Bare name) : 46 ∉ name := fun hmem =>
  (upperOrDigit_ne (h.chars 46 hmem)).1 rfl

theorem Extended.point (h : Extended name base ext) : 46 ∈ name := by
  rw [h.eq]
  simp

theorem Extended.length (h : Extended name base ext) : name.length = base.length+4 := by
  have hlen := congrArg List.length h.eq
  rw [List.length_append, List.length_cons, h.ext_length] at hlen
  exact hlen

theorem Extended.ne_zero (h : Extended name base ext) : ∀ c ∈ name, c ≠ 0 := by
  intro c hc
  rw [h.eq, List.mem_append, List.mem_cons] at hc
  rcases hc with hc | rfl | hc
  · exact (upperOrDigit_ne (h.chars c (List.mem_append_left _ hc))).2.2.1
  · decide
  · exact (upperOrDigit_ne (h.chars c (List.mem_append_right _ hc))).2.2.1

theorem cstr_self (h : ∀ c ∈ name, c ≠ 0) : cstr name = name :=
  List.takeWhile_eq_self_iff.mpr fun c hc => by simpa using h c hc

/-- The loop passes over the point. -/
theorem all_but_point (base ext : List UInt8) :
    ((List.range (base ++ 46 :: ext).length).all fun i =>
      upperOrDigit ((base ++ 46 :: ext).getD i 0) ∨ i = base.length) = true ↔
      ∀ c ∈ base ++ ext, upperOrDigit c = true := by
  have hbase : ∀ i (hi : i < base.length), (base ++ 46 :: ext).getD i 0 = base[i] := by
    intro i hi
    rw [List.getD_append _ _ _ _ hi, List.getD_eq_getElem _ _ hi]
  have hext : ∀ i (hi : i < ext.length),
      (base ++ 46 :: ext).getD (base.length+1+i) 0 = ext[i] := by
    intro i hi
    rw [List.getD_append_right _ _ _ _ (by omega), Nat.add_assoc, Nat.add_sub_cancel_left,
      Nat.add_comm 1 i, List.getD_cons_succ, List.getD_eq_getElem _ _ hi]
  simp only [List.all_eq_true, List.mem_range, decide_eq_true_eq, List.length_append,
    List.length_cons]
  constructor
  · intro h c hc
    rcases List.mem_append.mp hc with hc | hc
    · obtain ⟨i,hi,rfl⟩ := List.getElem_of_mem hc
      have hchar := (h i (by omega)).resolve_right (by omega)
      rwa [hbase i hi] at hchar
    · obtain ⟨i,hi,rfl⟩ := List.getElem_of_mem hc
      have hchar := (h (base.length+1+i) (by omega)).resolve_right (by omega)
      rwa [hext i hi] at hchar
  · intro h i hi
    rcases Nat.lt_trichotomy i base.length with hlt | heq | hgt
    · left
      rw [hbase i hlt]
      exact h _ (List.mem_append_left _ (List.getElem_mem hlt))
    · exact .inr heq
    · left
      obtain ⟨k,rfl⟩ := Nat.exists_eq_add_of_le (show base.length+1 ≤ i from hgt)
      rw [hext k (by omega)]
      exact h _ (List.mem_append_right _ (List.getElem_mem (by omega)))

/-- A name with a point where the test looks for it. -/
theorem extended_iff (h46 : 46 ∈ name) : isValidName name = true ↔
    ∃ base ext, Extended name base ext := by
  have htest (base ext : List UInt8) (hext : ext.length = 3) (hname : name = base ++ 46 :: ext) :
      ((List.range name.length).all fun i =>
        upperOrDigit (name.getD i 0) ∨ i = name.length-4) = true ↔
        ∀ c ∈ base ++ ext, upperOrDigit c = true := by
    have hlen : name.length-4 = base.length := by
      rw [hname, List.length_append, List.length_cons, hext]
      omega
    rw [hlen, hname]
    exact all_but_point base ext
  unfold isValidName
  rw [if_pos h46]
  split
  · rename_i hlong
    refine iff_of_false Bool.false_ne_true ?_
    rintro ⟨base,ext,h⟩
    have hlen := h.length
    have hle := h.base_le
    omega
  split
  · rename_i hshort
    refine iff_of_false Bool.false_ne_true ?_
    rintro ⟨base,ext,h⟩
    have hlen := h.length
    have hpos := h.base_pos
    omega
  rename_i hlong hshort
  split
  · rename_i hpoint
    refine iff_of_false Bool.false_ne_true ?_
    rintro ⟨base,ext,h⟩
    have hpos : name.length-4 = base.length := by
      rw [h.length]
      omega
    apply hpoint
    rw [hpos, h.eq, List.getD_append_right _ _ _ _ le_rfl, Nat.sub_self, List.getD_cons_zero]
  · rename_i hpoint
    rw [not_not] at hpoint
    constructor
    · intro hall
      have hlt : name.length-4 < name.length := by omega
      rw [List.getD_eq_getElem _ _ hlt] at hpoint
      have hname : name = name.take (name.length-4) ++ 46 :: name.drop (name.length-4+1) := by
        conv_lhs => rw [← List.take_append_drop (name.length-4) name,
          List.drop_eq_getElem_cons hlt, hpoint]
      have hext : (name.drop (name.length-4+1)).length = 3 := by
        rw [List.length_drop]
        omega
      exact ⟨_, _, hname, by rw [List.length_take]; omega, by rw [List.length_take]; omega, hext,
        (htest _ _ hext hname).mp hall⟩
    · rintro ⟨base,ext,h⟩
      exact (htest base ext h.ext_length h.eq).mpr h.chars

/-- The accepted names. -/
theorem isValidName_iff :
    isValidName name = true ↔ Bare name ∨ ∃ base ext, Extended name base ext := by
  by_cases h46 : 46 ∈ name
  · rw [extended_iff h46]
    exact ⟨.inr, fun h => h.resolve_left fun hbare => hbare.no_point h46⟩
  · have hno : ¬∃ base ext, Extended name base ext := fun ⟨_,_,h⟩ => h46 h.point
    rw [or_iff_left hno]
    unfold isValidName
    rw [if_neg h46]
    split
    · rename_i hlong
      exact iff_of_false Bool.false_ne_true fun h => by have := h.le; omega
    split
    · rename_i hshort
      exact iff_of_false Bool.false_ne_true fun h => by have := h.pos; omega
    · rename_i hlong hshort
      rw [List.all_eq_true]
      exact ⟨fun h => ⟨by omega, by omega, h⟩, fun h => h.chars⟩

/-- Bytes over blanks. -/
theorem block_blank (xs : List UInt8) {n : ℕ} (h : xs.length ≤ n) :
    block (fill (fun _ => 32) 0 xs) 0 n = xs ++ List.replicate (n-xs.length) 32 := by
  have hblank : block (fun _ => (32 : UInt8)) 0 n = List.replicate n 32 := by
    rw [block, List.map_const', List.length_range]
  have hfill : block (fill (fun _ => 32) (0+0) xs) 0 n = (block (fun _ => 32) 0 n).take 0 ++ xs ++
      (block (fun _ => 32) 0 n).drop (0+xs.length) := block_fill (by rwa [Nat.zero_add])
  rw [hblank, List.take_zero, List.nil_append, List.drop_replicate, Nat.zero_add,
    Nat.zero_add] at hfill
  exact hfill

theorem rawName_bare (h : Bare name) :
    rawName name = name ++ List.replicate (11-name.length) 32 := by
  have hle := h.le
  unfold rawName
  rw [if_neg h.no_point, block_blank name (by omega)]

theorem rawName_extended (h : Extended name base ext) :
    rawName name = base ++ List.replicate (8-base.length) 32 ++ ext := by
  have hle := h.base_le
  have hbase : name.take (name.length-4) = base := by
    rw [h.length, Nat.add_sub_cancel, h.eq, List.take_left]
  have hext : (name.drop (name.length-3)).take 3 = ext := by
    have hsplit : name = (base ++ [46]) ++ ext := by simp [h.eq]
    have hpos : name.length-3 = (base ++ [46]).length := by simp [h.length]
    rw [hpos, hsplit, List.drop_left, ← h.ext_length, List.take_length]
  have hfill : block (fill (fill (fun _ => 32) 0 base) (0+8) ext) 0 11 =
      (block (fill (fun _ => 32) 0 base) 0 11).take 8 ++ ext ++
      (block (fill (fun _ => 32) 0 base) 0 11).drop (8+ext.length) :=
    block_fill (by rw [h.ext_length])
  unfold rawName
  rw [if_pos h.point, hbase, hext]
  rw [block_blank base (by omega), h.ext_length, Nat.zero_add] at hfill
  rw [hfill, List.take_append, List.take_of_length_le hle, List.take_replicate,
    List.drop_of_length_le (by simp; omega), List.append_nil]
  congr 3
  omega

@[simp] theorem rawName_length (name : List UInt8) : (rawName name).length = 11 := by
  unfold rawName
  split
  · exact block_length
  · exact block_length

/-- Only the blanks behind a name are dropped. -/
theorem rdropWhile_blanks (h : ∀ c ∈ name, c ≠ 32) (k : ℕ) :
    (name ++ List.replicate k 32).rdropWhile (· = 32) = name := by
  induction k with
  | zero =>
    rw [List.replicate_zero, List.append_nil, List.rdropWhile_eq_self_iff]
    intro hne
    simpa using h _ (List.getLast_mem hne)
  | succ k ih =>
    rw [List.replicate_succ', ← List.append_assoc, List.rdropWhile_concat_pos _ _ _ (by simp), ih]

/-- The parts of the stored name. -/
theorem parts_bare (h : Bare name) :
    ((rawName name).take 8).rdropWhile (· = 32) = name ∧ (rawName name).drop 8 = [32,32,32] := by
  have hle := h.le
  have hsplit : rawName name = (name ++ List.replicate (8-name.length) 32) ++ [32,32,32] := by
    rw [rawName_bare h, List.append_assoc]
    congr 1
    rw [show [(32 : UInt8),32,32] = List.replicate 3 32 from rfl, List.replicate_append_replicate]
    congr 1
    omega
  have hlen : (name ++ List.replicate (8-name.length) 32).length = 8 := by
    rw [List.length_append, List.length_replicate]
    omega
  rw [hsplit, List.take_left' hlen, List.drop_left' hlen]
  exact ⟨rdropWhile_blanks (fun c hc => (upperOrDigit_ne (h.chars c hc)).2.1) _, rfl⟩

theorem parts_extended (h : Extended name base ext) :
    ((rawName name).take 8).rdropWhile (· = 32) = base ∧ (rawName name).drop 8 = ext := by
  have hle := h.base_le
  have hlen : (base ++ List.replicate (8-base.length) 32).length = 8 := by
    rw [List.length_append, List.length_replicate]
    omega
  rw [rawName_extended h, List.take_left' hlen, List.drop_left' hlen]
  refine ⟨rdropWhile_blanks (fun c hc => ?_) _, rfl⟩
  exact (upperOrDigit_ne (h.chars c (List.mem_append_left _ hc))).2.1

/-- Different names are stored differently. -/
theorem rawName_injective (h : isValidName name = true) (h' : isValidName name' = true)
    (hraw : rawName name = rawName name') : name = name' := by
  have hblank {base ext : List UInt8} (hext : Extended name base ext ∨ Extended name' base ext) :
      ext ≠ [32,32,32] := by
    rintro rfl
    have hchars : ∀ c ∈ base ++ [32,32,32], upperOrDigit c = true := by
      rcases hext with hext | hext
      · exact hext.chars
      · exact hext.chars
    exact (upperOrDigit_ne (hchars 32 (by simp))).2.1 rfl
  rcases isValidName_iff.mp h with hb | ⟨base,ext,he⟩
  · obtain ⟨hbase,hend⟩ := parts_bare hb
    rcases isValidName_iff.mp h' with hb' | ⟨base',ext',he'⟩
    · rw [← hbase, hraw, (parts_bare hb').1]
    · rw [hraw, (parts_extended he').2] at hend
      exact absurd hend (hblank (.inr he'))
  · obtain ⟨hbase,hend⟩ := parts_extended he
    rcases isValidName_iff.mp h' with hb' | ⟨base',ext',he'⟩
    · rw [hraw, (parts_bare hb').2] at hend
      exact absurd hend.symm (hblank (.inl he))
    · obtain ⟨hbase',hend'⟩ := parts_extended he'
      rw [he.eq, he'.eq, ← hbase, ← hbase', ← hend, ← hend', hraw]

end Names

section Entry
variable {d d' : Dirent} {name base ext : List UInt8} {ds ds' : List Dirent}

theorem setName_some (h : d.setName name = some d') :
    isValidName name = true ∧ d' = rawName name ++ d.drop 11 := by
  unfold Dirent.setName at h
  split at h
  · rename_i hvalid
    exact ⟨hvalid, (Option.some.inj h).symm⟩
  · cases h

theorem setName_filename (h : d.setName name = some d') : d'.filename = rawName name := by
  rw [(setName_some h).2, Dirent.filename, List.take_left' (rawName_length name)]

/-- Only the name is changed. -/
theorem setName_attr (h : d.setName name = some d') : d'.attr = d.attr := by
  rw [(setName_some h).2, Dirent.attr, Dirent.attr, List.getD_append_right _ _ _ _ (by simp),
    rawName_length]
  simp [List.getD_eq_getElem?_getD]

/-- A stored name begins with a character. -/
theorem rawName_first (h : isValidName name = true) :
    ∃ c rest, rawName name = c::rest ∧ upperOrDigit c = true := by
  rcases isValidName_iff.mp h with hb | ⟨base,ext,he⟩
  · obtain ⟨c,rest,rfl⟩ := List.exists_cons_of_length_pos hb.pos
    exact ⟨c, _, rawName_bare hb, hb.chars c List.mem_cons_self⟩
  · obtain ⟨c,rest,rfl⟩ := List.exists_cons_of_length_pos he.base_pos
    exact ⟨c, _, rawName_extended he, he.chars c List.mem_cons_self⟩

/-- The entry is in use. -/
theorem setName_free (h : d.setName name = some d') (hattr : d.attr ≠ 0x0f) : d'.free = false := by
  obtain ⟨hvalid,hd'⟩ := setName_some h
  obtain ⟨c,rest,hraw,hc⟩ := rawName_first hvalid
  have hfirst : d'.getD 0 0 = c := by
    rw [hd', hraw]
    rfl
  obtain ⟨-,-,h0,hdel⟩ := upperOrDigit_ne hc
  unfold Dirent.free
  rw [if_neg (by rwa [setName_attr h]), hfirst]
  simp [h0, hdel]

/-- What the stored name is converted to. -/
theorem setName_name (h : d.setName name = some d') :
    d'.base ≠ [] ∧ d'.name = some (if 46 ∈ name then name else name ++ [46,32,32,32]) := by
  obtain ⟨hvalid,-⟩ := setName_some h
  unfold Dirent.name Dirent.to8dot3 Dirent.base
  rw [setName_filename h]
  rcases isValidName_iff.mp hvalid with hb | ⟨base,ext,he⟩
  · obtain ⟨hbase,hend⟩ := parts_bare hb
    have hne : name ≠ [] := List.ne_nil_of_length_pos hb.pos
    refine ⟨by rwa [hbase], ?_⟩
    rw [hbase, hend, if_neg hne, if_neg hb.no_point, Option.map_some]
    refine congrArg some (cstr_self fun c hc => ?_)
    rcases List.mem_append.mp hc with hc | hc
    · exact (upperOrDigit_ne (hb.chars c hc)).2.2.1
    · rintro rfl
      exact absurd hc (by decide)
  · obtain ⟨hbase,hend⟩ := parts_extended he
    have hne : base ≠ [] := List.ne_nil_of_length_pos he.base_pos
    refine ⟨by rwa [hbase], ?_⟩
    rw [hbase, hend, if_neg hne, if_pos he.point, Option.map_some, ← he.eq, cstr_self he.ne_zero]

/-- The entries before a new one have other names, in both forms. -/
def Fresh (name : List UInt8) (ds : List Dirent) : Prop :=
  ∀ d ∈ ds, d.free = false → d.isLfn = false →
    d.filename ≠ rawName name ∧ d.base ≠ [] ∧ d.name ≠ some name

/-- A lookup by the 11 bytes passes over the entries before. -/
theorem fat32DirLookup_fresh (h : Fresh name ds) (i : ℕ) :
    fat32DirLookup (rawName name) i (ds ++ ds') =
      fat32DirLookup (rawName name) (i+ds.length) ds' := by
  induction ds generalizing i with
  | nil => rfl
  | cons d ds ih =>
    have hrest : Fresh name ds := fun x hx => h x (List.mem_cons_of_mem d hx)
    rw [List.cons_append, fat32DirLookup, ih hrest, List.length_cons, Nat.add_assoc,
      Nat.add_comm 1 ds.length]
    split
    · rfl
    · rename_i hused
      rw [not_or, Bool.not_eq_true, Bool.not_eq_true] at hused
      rw [if_neg (h d List.mem_cons_self hused.1 hused.2).1.symm]

/-- So does a lookup by name. -/
theorem findDirent_fresh (h : Fresh name ds) (hname : cstr name = name) :
    findDirent name (ds ++ ds') = findDirent name ds' := by
  induction ds with
  | nil => rfl
  | cons d ds ih =>
    have hrest : Fresh name ds := fun x hx => h x (List.mem_cons_of_mem d hx)
    rw [List.cons_append, findDirent, ih hrest]
    split
    · rfl
    · rename_i hused
      simp only [Dirent.skipped, decide_eq_true_eq, not_or, Bool.not_eq_true] at hused
      obtain ⟨-,hbase,hother⟩ := h d List.mem_cons_self hused.1 hused.2.1
      obtain ⟨e,he⟩ := direntConvert_isSome.mpr hbase
      have hname' := direntConvert_name he
      rw [hname', ne_eq, Option.some.injEq] at hother
      rw [hname']
      exact if_neg (by rw [hname]; exact Ne.symm hother)

/-- What is found has the name. -/
theorem findDirent_name {e : PiDirent} (h : findDirent name ds = some (some e)) :
    e.name = cstr name := by
  induction ds with
  | nil => cases h
  | cons d ds ih =>
    rw [findDirent] at h
    split at h
    · exact ih h
    · obtain ⟨name',hname,h⟩ := Option.bind_eq_some_iff.mp h
      split at h
      · rename_i hsame
        obtain ⟨e',he',h⟩ := Option.bind_eq_some_iff.mp h
        cases h
        rw [direntConvert_name he', Option.some.injEq] at hname
        rw [hname, hsame]
      · exact ih h

end Entry

section Created
variable {d d' : Dirent} {name : List UInt8} {ds : List Dirent}

/-- A new entry is found by its 11 bytes, but by its name only if that has an extension. -/
theorem setName_found_iff
    (hset : d.setName name = some d') (hattr : d.attr ≠ 0x0f ∧ d.attr ≠ 0x08)
    (hfresh : Fresh name ds) (ds' : List Dirent) :
    fat32DirLookup (rawName name) 0 (ds ++ d'::ds') = some ds.length ∧
      ((∃ e, direntConvert d' = some e ∧ findDirent name (ds ++ d'::ds') = some (some e)) ↔
        46 ∈ name) := by
  obtain ⟨hvalid,-⟩ := setName_some hset
  have hfree := setName_free hset hattr.1
  have hattr' := setName_attr hset
  have hlfn : d'.isLfn = false := by
    rw [Dirent.isLfn, hattr']
    simpa using hattr.1
  obtain ⟨hbase,hname⟩ := setName_name hset
  obtain ⟨e,he⟩ := direntConvert_isSome.mpr hbase
  have hskipped : ¬d'.skipped = true := by
    simp [Dirent.skipped, hfree, hlfn, hattr', hattr.2]
  have hcstr : cstr name = name := by
    rcases isValidName_iff.mp hvalid with hb | ⟨base,ext,h⟩
    · exact cstr_self fun c hc => (upperOrDigit_ne (hb.chars c hc)).2.2.1
    · exact cstr_self h.ne_zero
  constructor
  · rw [fat32DirLookup_fresh hfresh, fat32DirLookup, if_neg (by simp [hfree, hlfn]),
      if_pos (setName_filename hset).symm, Nat.zero_add]
  · rw [findDirent_fresh hfresh hcstr, findDirent, if_neg hskipped, hname, hcstr]
    by_cases h46 : 46 ∈ name
    · rw [if_pos h46]
      exact iff_of_true ⟨e, he, by simp [he]⟩ h46
    · rw [if_neg h46]
      refine iff_of_false ?_ h46
      -- the entry is passed over, and a later one cannot have its name
      rintro ⟨e',he',hfound⟩
      have hother : findDirent name ds' = some (some e') := by simpa using hfound
      have hsame := findDirent_name hother
      rw [direntConvert_name he', if_neg h46, Option.some.injEq] at hname
      rw [hname, hcstr] at hsame
      simp at hsame

/-- Entry by entry, a name was set in an entry that is not a long name or a label. -/
def Created (names : List (List UInt8)) (ds : List Dirent) : Prop :=
  List.Forall₂ (fun name d => ∃ d₀ : Dirent, (d₀.attr ≠ 0x0f ∧ d₀.attr ≠ 0x08) ∧
    d₀.setName name = some d) names ds

theorem valid_no_blank (h : isValidName name = true) : 32 ∉ name := by
  intro hmem
  rcases isValidName_iff.mp h with hb | ⟨base,ext,he⟩
  · exact (upperOrDigit_ne (hb.chars 32 hmem)).2.1 rfl
  · rw [he.eq, List.mem_append, List.mem_cons] at hmem
    rcases hmem with hmem | hmem | hmem
    · exact (upperOrDigit_ne (he.chars 32 (List.mem_append_left _ hmem))).2.1 rfl
    · exact absurd hmem (by decide)
    · exact (upperOrDigit_ne (he.chars 32 (List.mem_append_right _ hmem))).2.1 rfl

/-- Other names make other entries, in both forms. -/
theorem Created.fresh {names : List (List UInt8)} (h : Created names ds)
    (hvalid : isValidName name = true) (hnew : name ∉ names) : Fresh name ds := by
  induction h with
  | nil => exact fun d hd => absurd hd List.not_mem_nil
  | @cons name' d names ds hset _ ih =>
    rw [List.mem_cons, not_or] at hnew
    refine List.forall_mem_cons.mpr ⟨fun _ _ => ?_, ih hnew.2⟩
    obtain ⟨d₀,-,hset⟩ := hset
    obtain ⟨hbase,hname⟩ := setName_name hset
    refine ⟨?_, hbase, ?_⟩
    · rw [setName_filename hset]
      exact fun hraw => hnew.1 (rawName_injective (setName_some hset).1 hvalid hraw).symm
    · rw [hname, ne_eq, Option.some.injEq]
      split
      · exact fun hsame => hnew.1 hsame.symm
      · intro hsame
        refine valid_no_blank hvalid ?_
        rw [← hsame]
        simp

end Created

/-- In a directory of files with different names, each one is found at its place by its 11 bytes, but
by its name only if that has an extension. -/
theorem created_found_iff {names : List (List UInt8)} {ds : List Dirent} (h : Created names ds)
    (hnames : names.Nodup) {i : ℕ} (hi : i < names.length) (hi' : i < ds.length) :
    fat32DirLookup (rawName names[i]) 0 ds = some i ∧
      ((∃ e, direntConvert ds[i] = some e ∧ findDirent names[i] ds = some (some e)) ↔
        46 ∈ names[i]) := by
  obtain ⟨d₀,hattr,hset⟩ := h.get hi hi'
  have hnew : names[i] ∉ names.take i := by
    intro hmem
    obtain ⟨k,hk,hsame⟩ := List.getElem_of_mem hmem
    rw [List.length_take] at hk
    rw [List.getElem_take] at hsame
    have := (List.Nodup.getElem_inj_iff hnames).mp hsame
    omega
  have hfresh : Fresh names[i] (ds.take i) :=
    Created.fresh (List.forall₂_take i h) (setName_some hset).1 hnew
  have hsplit : ds = ds.take i ++ ds[i] :: ds.drop (i+1) := by
    rw [← List.drop_eq_getElem_cons hi', List.take_append_drop]
  have hfound := setName_found_iff hset hattr hfresh (ds.drop (i+1))
  rw [List.length_take_of_le hi'.le] at hfound
  simp only [List.get_eq_getElem] at hfound
  rwa [← hsplit] at hfound

/-- The deleted entry of a file gets one name with an extension and one without. -/
theorem created_found_iff_two :
    let n := [65,66,(46 : UInt8),67,49,50]
    let n' := [65,(66 : UInt8)]
    let ds : List Dirent := [rawName n ++ readme.drop 11, rawName n' ++ readme.drop 11]
    fat32DirLookup (rawName n') 0 ds = some 1 ∧
      ((∃ e, direntConvert (rawName n' ++ readme.drop 11) = some e ∧
        findDirent n' ds = some (some e)) ↔ 46 ∈ n') := by
  intro n n' ds
  have h : Created [n,n'] ds :=
    .cons ⟨readme, by decide, by decide⟩ (.cons ⟨readme, by decide, by decide⟩ .nil)
  exact @created_found_iff [n,n'] ds h (by decide) 1 (by decide) (by decide)

end DistributedPis
