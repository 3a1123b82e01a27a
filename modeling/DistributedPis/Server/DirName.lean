import DistributedPis.Server.FatDir

/-! The conversion of a name into its array and the copy to the caller, byte by byte. -/
namespace DistributedPis
open Library

/-- A store into `s[14]`. -/
def putName (s : ℕ → UInt8) (i : ℤ) (c : UInt8) : Option (ℕ → UInt8) :=
  if 0 ≤ i ∧ i < 14 then some (write8 s i.toNat c) else none

/-- The loop over the first `n` bytes from their end: the index behind the last byte that is not a
space, or -1. -/
def lastNonSpace (s : ℕ → UInt8) : ℕ → ℤ
  | 0 => -1
  | n+1 => if s n ≠ 32 then n+1 else lastNonSpace s n

/-- `strcpy` from `s[14]` into `size` bytes, from index `k` on: how many bytes it has copied. -/
def strcpy (s : ℕ → UInt8) (size : ℕ) : ℕ → ℕ → Option ℕ
  | 0, _ => none
  | fuel+1, k =>
    if k < 14 ∧ k < size then
      if s k = 0 then some (k+1) else strcpy s size fuel (k+1)
    else none

namespace Dirent

/-- `to_8dot3`, on the static array with what it held before. -/
def to8dot3Array (d : Dirent) (s : ℕ → UInt8) : Option (ℕ → UInt8) := do
  let s := fill s 0 (d.filename.take 8)
  let i := lastNonSpace s 8
  let s ← putName s i 46
  let s ← putName s (i+1) (d.filename.getD 8 0)
  let s ← putName s (i+2) (d.filename.getD 9 0)
  let s ← putName s (i+3) (d.filename.getD 10 0)
  putName s (i+4) 0

/-- `fat32_dirent_name` into a block of `size` bytes. -/
def nameInto (d : Dirent) (s : ℕ → UInt8) (size : ℕ) : Option ℕ := do
  let s ← d.to8dot3Array s
  strcpy s size 15 0

/-- No access of the conversion is outside of its array, or of the block of the caller. -/
def NameInBounds (d : Dirent) (size : ℕ) : Prop := ∀ s, (d.nameInto s size).isSome = true

end Dirent

section Copy
variable {s : ℕ → UInt8} {size fuel k : ℕ} {xs : List UInt8}

/-- The copy ends behind the first zero byte, if there is room for it. -/
theorem strcpy_eq (hs : ∀ j (h : j < xs.length), s (k+j) = xs[j]) (hzero : s (k+xs.length) = 0)
    (hk : k + xs.length < 14) (hfuel : xs.length < fuel) :
    strcpy s size fuel k =
      if k + (cstr xs).length < size then some (k + (cstr xs).length + 1) else none := by
  induction xs generalizing k fuel with
  | nil =>
    obtain ⟨fuel,rfl⟩ := Nat.exists_eq_add_one.mpr (Nat.zero_lt_of_lt hfuel)
    have hnil : cstr [] = [] := rfl
    simp only [List.length_nil, Nat.add_zero] at hzero hk
    simp only [strcpy, hnil, List.length_nil, Nat.add_zero, if_pos hzero]
    by_cases hsize : k < size
    · rw [if_pos ⟨hk,hsize⟩, if_pos hsize]
    · rw [if_neg fun h => hsize h.2, if_neg hsize]
  | cons x xs ih =>
    obtain ⟨fuel,rfl⟩ := Nat.exists_eq_add_one.mpr (Nat.zero_lt_of_lt hfuel)
    rw [List.length_cons] at hk hfuel hzero
    have hx : s k = x := hs 0 (Nat.succ_pos _)
    rw [strcpy, hx]
    by_cases hx0 : x = 0
    · have hnil : cstr (x::xs) = [] := List.takeWhile_cons_of_neg (by simpa using hx0)
      simp only [hnil, List.length_nil, Nat.add_zero, if_pos hx0]
      by_cases hsize : k < size
      · rw [if_pos ⟨by omega, hsize⟩, if_pos hsize]
      · rw [if_neg fun h => hsize h.2, if_neg hsize]
    · have hcons : cstr (x::xs) = x :: cstr xs := List.takeWhile_cons_of_pos (by simpa using hx0)
      have hadd : ∀ j, k+1+j = k+(j+1) := by omega
      have hrest : ∀ j (h : j < xs.length), s (k+1+j) = xs[j] := by
        intro j h
        rw [hadd]
        exact hs (j+1) (Nat.succ_lt_succ h)
      rw [hcons, List.length_cons, if_neg hx0,
        ih hrest (by rw [hadd]; exact hzero) (by omega) (by omega), hadd]
      by_cases hsize : k < size
      · rw [if_pos ⟨by omega, hsize⟩]
      · rw [if_neg fun h => hsize h.2, if_neg (by omega)]

theorem cstr_isPrefix (xs : List UInt8) : cstr xs <+: xs := List.takeWhile_prefix _

theorem cstr_length_lt {xs : List UInt8} : (cstr xs).length < xs.length ↔ 0 ∈ xs := by
  have hpre := cstr_isPrefix xs
  have hiff : cstr xs = xs ↔ ∀ x ∈ xs, x ≠ 0 := by
    rw [cstr, List.takeWhile_eq_self_iff]
    simp
  constructor
  · intro hlt
    by_contra hnot
    have heq := hiff.mpr fun x hx hx0 => hnot (hx0 ▸ hx)
    rw [heq] at hlt
    exact Nat.lt_irrefl _ hlt
  · intro hmem
    refine Nat.lt_of_le_of_ne hpre.length_le fun hlen => ?_
    exact hiff.mp (hpre.eq_of_length hlen) 0 hmem rfl

/-- The loop finds the end of what is left without the spaces at the end. -/
theorem lastNonSpace_eq (xs : List UInt8) (hs : ∀ j (h : j < xs.length), s j = xs[j]) :
    lastNonSpace s xs.length =
      if xs.rdropWhile (· = 32) = [] then -1 else ((xs.rdropWhile (· = 32)).length : ℤ) := by
  induction xs using List.reverseRecOn with
  | nil => rfl
  | append_singleton xs x ih =>
    have hx : s xs.length = x := by
      rw [hs xs.length (by simp), List.getElem_concat_length rfl]
    have hxs : ∀ j (h : j < xs.length), s j = xs[j] := by
      intro j h
      rw [hs j (by simp; omega), List.getElem_append_left h]
    rw [List.length_append, List.length_singleton, lastNonSpace, hx]
    by_cases hspace : x = 32
    · rw [if_neg (by simpa using hspace), List.rdropWhile_concat_pos _ _ _ (by simpa using hspace)]
      exact ih hxs
    · rw [if_pos hspace, List.rdropWhile_concat_neg _ _ _ (by simpa using hspace)]
      simp

/-- The bytes of a string and the byte behind it. -/
theorem block_concat {m : ℕ → UInt8} {x : UInt8} {a : ℕ}
    (h : block m a (xs.length+1) = xs ++ [x]) :
    (∀ j (hj : j < xs.length), m (a+j) = xs[j]) ∧ m (a+xs.length) = x := by
  have hget : ∀ j (hj : j < (xs ++ [x]).length), m (a+j) = (xs ++ [x])[j] := by
    intro j hj
    have hlt : j < (block m a (xs.length+1)).length := by rwa [h]
    rw [← List.getElem_of_eq h hlt, getElem_block]
  refine ⟨fun j hj => ?_, ?_⟩
  · rw [hget j (by simp; omega), List.getElem_append_left hj]
  · rw [hget xs.length (by simp), List.getElem_concat_length rfl]

end Copy

namespace Dirent
variable {d : Dirent} {s : ℕ → UInt8} {size : ℕ}

theorem base_prefix (d : Dirent) : d.base <+: d.filename.take 8 := List.rdropWhile_prefix _ _

theorem base_length_le (d : Dirent) : d.base.length ≤ 8 :=
  d.base_prefix.length_le.trans (List.length_take_le 8 _)

theorem filename_length (h : d.length = 32) : d.filename.length = 11 := by
  rw [filename, List.length_take, h]
  rfl

/-- The index at which the point is put. -/
theorem lastNonSpace_base (h : d.length = 32) (s : ℕ → UInt8) :
    lastNonSpace (fill s 0 (d.filename.take 8)) 8 =
      if d.base = [] then -1 else (d.base.length : ℤ) := by
  have hlen : (d.filename.take 8).length = 8 := by
    rw [List.length_take, filename_length h]
    rfl
  have hs : ∀ j (hj : j < (d.filename.take 8).length),
      fill s 0 (d.filename.take 8) j = (d.filename.take 8)[j] := by
    intro j hj
    have hfill := fill_inside (m := s) (a := 0) hj
    rwa [Nat.zero_add] at hfill
  have hloop := lastNonSpace_eq _ hs
  rwa [hlen] at hloop

/-- A blank base leads the conversion to index -1. -/
theorem to8dot3Array_blank (h : d.length = 32) (hbase : d.base = []) (s : ℕ → UInt8) :
    d.to8dot3Array s = none := by
  rw [to8dot3Array, lastNonSpace_base h, if_pos hbase]
  rfl

theorem putName_eq {i : ℤ} {k : ℕ} (hi : i = k) (hk : k < 14) (c : UInt8) :
    putName s i c = some (write8 s k c) := by
  rw [putName, if_pos ⟨by omega, by omega⟩, hi, Int.toNat_natCast]

/-- The suffix of a name is its last three bytes. -/
theorem suffix_eq (h : d.length = 32) : d.filename.drop 8 =
    [d.filename.getD 8 0, d.filename.getD 9 0, d.filename.getD 10 0] := by
  have hlen := filename_length h
  have hget : ∀ k (hk : k < 11), d.filename.getD k 0 = d.filename[k] := fun k hk =>
    List.getD_eq_getElem _ _ (by omega)
  rw [hget 8 (by omega), hget 9 (by omega), hget 10 (by omega),
    List.drop_eq_getElem_cons (by omega), List.drop_eq_getElem_cons (by omega),
    List.drop_eq_getElem_cons (by omega), List.drop_of_length_le (by omega)]

theorem name_length (h : d.length = 32) :
    (d.base ++ 46 :: d.filename.drop 8).length = d.base.length + 4 := by
  rw [List.length_append, suffix_eq h]
  rfl

/-- The point, the suffix and the zero byte are written one behind the other. -/
theorem to8dot3Array_writes (h : d.length = 32) (hbase : d.base ≠ []) (s : ℕ → UInt8) :
    d.to8dot3Array s = some (fill (fill s 0 (d.filename.take 8)) (0+d.base.length)
      (46 :: (d.filename.drop 8 ++ [0]))) := by
  have hle := d.base_length_le
  rw [to8dot3Array, lastNonSpace_base h, if_neg hbase, suffix_eq h, Nat.zero_add]
  generalize fill s 0 (d.filename.take 8) = m
  generalize d.filename.getD 8 0 = x
  generalize d.filename.getD 9 0 = y
  generalize d.filename.getD 10 0 = z
  generalize d.base.length = b at *
  have hx : write8 (write8 m b 46) (b+1) x = fill m b [46,x] := fill_fill m b [46] [x]
  have hy : write8 (fill m b [46,x]) (b+2) y = fill m b [46,x,y] := fill_fill m b [46,x] [y]
  have hz : write8 (fill m b [46,x,y]) (b+3) z = fill m b [46,x,y,z] :=
    fill_fill m b [46,x,y] [z]
  have hend : write8 (fill m b [46,x,y,z]) (b+4) 0 = fill m b [46,x,y,z,0] :=
    fill_fill m b [46,x,y,z] [0]
  simp only [Option.bind_eq_bind]
  rw [putName_eq rfl (by omega), Option.bind_some, putName_eq (k := b+1) (by omega) (by omega),
    Option.bind_some, putName_eq (k := b+2) (by omega) (by omega), Option.bind_some,
    putName_eq (k := b+3) (by omega) (by omega), Option.bind_some,
    putName_eq (k := b+4) (by omega) (by omega), hx, hy, hz, hend]
  rfl

/-- The string behind the conversion, up to its last zero byte. -/
theorem to8dot3Array_block (h : d.length = 32) (s : ℕ → UInt8) :
    block (fill (fill s 0 (d.filename.take 8)) (0+d.base.length) (46 :: (d.filename.drop 8 ++ [0])))
      0 (d.base.length+5) = (d.base ++ 46 :: d.filename.drop 8) ++ [0] := by
  have hsuffix : (46 :: (d.filename.drop 8 ++ [0])).length = 5 := by
    rw [suffix_eq h]
    rfl
  have hbase : (block (fill s 0 (d.filename.take 8)) 0 (d.base.length+5)).take d.base.length =
      d.base := by
    apply List.ext_getElem
    · simp
    · intro k _ hk
      have hlt := hk.trans_le d.base_prefix.length_le
      have hfill := fill_inside (m := s) (a := 0) hlt
      rw [List.getElem_take, getElem_block, hfill]
      exact (d.base_prefix.getElem hk).symm
  have hdrop : (block (fill s 0 (d.filename.take 8)) 0 (d.base.length+5)).drop
      (d.base.length+5) = [] := List.drop_of_length_le (by rw [block_length])
  rw [block_fill (by omega), hbase, hsuffix, hdrop]
  simp

/-- How many bytes are copied. -/
theorem nameInto_eq (h : d.length = 32) (hbase : d.base ≠ []) (s : ℕ → UInt8) (size : ℕ) :
    d.nameInto s size =
      if (cstr (d.base ++ 46 :: d.filename.drop 8)).length < size then
        some ((cstr (d.base ++ 46 :: d.filename.drop 8)).length + 1)
      else none := by
  have hle := d.base_length_le
  have hlen := name_length h
  have hblock := to8dot3Array_block h s
  rw [nameInto, to8dot3Array_writes h hbase, Option.bind_eq_bind, Option.bind_some]
  generalize fill (fill s 0 (d.filename.take 8)) (0+d.base.length)
    (46 :: (d.filename.drop 8 ++ [0])) = s' at *
  obtain ⟨hget,hzero⟩ := block_concat (by rw [hlen]; exact hblock)
  rw [strcpy_eq hget hzero (by omega) (by omega), Nat.zero_add]

/-- The copy fits if its string does. -/
theorem nameInBounds_iff (h : d.length = 32) : d.NameInBounds size ↔
    d.base ≠ [] ∧ (cstr (d.base ++ 46 :: d.filename.drop 8)).length < size := by
  constructor
  · intro hin
    have hbase : d.base ≠ [] := by
      intro hbase
      have hnone := hin fun _ => 0
      rw [nameInto, to8dot3Array_blank h hbase] at hnone
      cases hnone
    have hsome := hin fun _ => 0
    rw [nameInto_eq h hbase] at hsome
    by_contra hsize
    rw [if_neg fun hlt => hsize ⟨hbase,hlt⟩] at hsome
    cases hsome
  · rintro ⟨hbase,hsize⟩ s
    rw [nameInto_eq h hbase, if_pos hsize]
    rfl

/-- The only strings of 12 bytes have a base of eight bytes and no zero byte. -/
theorem name_length_iff (h : d.length = 32) :
    (cstr (d.base ++ 46 :: d.filename.drop 8)).length < 12 ↔
      (d.base.length = 8 → 0 ∈ d.filename) := by
  have hle := d.base_length_le
  have hlen := name_length h
  by_cases h8 : d.base.length = 8
  · have hbase : d.base = d.filename.take 8 := by
      refine d.base_prefix.eq_of_length ?_
      rw [h8, List.length_take, filename_length h]
      rfl
    have hmem : (0 : UInt8) ∈ d.base ++ 46 :: d.filename.drop 8 ↔ 0 ∈ d.filename := by
      rw [hbase, List.mem_append, List.mem_cons]
      conv_rhs => rw [← List.take_append_drop 8 d.filename, List.mem_append]
      simp
    rw [h8] at hlen
    rw [← hmem, ← cstr_length_lt, hlen]
    exact ⟨fun hlt _ => hlt, fun himp => himp h8⟩
  · have hcstr := (cstr_isPrefix (d.base ++ 46 :: d.filename.drop 8)).length_le
    exact iff_of_true (by omega) fun heq => absurd heq h8

end Dirent

/-- A name is converted within its arrays exactly if its base is not blank and, for the 12 bytes of
`fat32_stat`, a base of eight bytes comes with a zero byte. -/
theorem dirent_name_in_bounds_iff {d : Dirent} (h : d.length = 32) :
    (d.NameInBounds 16 ↔ d.base ≠ []) ∧
      (d.NameInBounds 12 ↔ d.base ≠ [] ∧ (d.base.length = 8 → 0 ∈ d.filename)) := by
  have hle := d.base_length_le
  have hcstr := (cstr_isPrefix (d.base ++ 46 :: d.filename.drop 8)).length_le
  rw [Dirent.name_length h] at hcstr
  constructor
  · rw [Dirent.nameInBounds_iff h]
    exact and_iff_left (by omega)
  · rw [Dirent.nameInBounds_iff h, Dirent.name_length_iff h]

/-- An entry with the attribute of a file. -/
def fileNamed (name : List UInt8) : Dirent := name ++ [0x20] ++ List.replicate 20 0

/-- `README.MD`. -/
def readme : Dirent := fileNamed [82,69,65,68,77,69,32,32,77,68,32]

theorem dirent_name_in_bounds_readme : readme.NameInBounds 16 ∧ readme.NameInBounds 12 := by
  have hiff := dirent_name_in_bounds_iff (d := readme) (by decide)
  exact ⟨hiff.1.mpr (by decide), hiff.2.mpr (by decide)⟩

/-- A file without a name puts the point at index -1, and the 13 bytes of `ABCDEFGH.IJK` are copied
to a block of 12. -/
theorem dirent_name_out_of_bounds :
    (fileNamed (List.replicate 11 32)).skipped = false ∧
    (∀ s, (fileNamed (List.replicate 11 32)).to8dot3Array s = none) ∧
    (fileNamed [65,66,67,68,69,70,71,72,73,74,75]).skipped = false ∧
    (fileNamed [65,66,67,68,69,70,71,72,73,74,75]).nameInto (fun _ => 0) 16 = some 13 ∧
    ¬(fileNamed [65,66,67,68,69,70,71,72,73,74,75]).NameInBounds 12 := by
  refine ⟨by decide, fun s => Dirent.to8dot3Array_blank (by decide) (by decide) s, by decide,
    by decide, fun h => ?_⟩
  exact absurd (h fun _ => 0) (by decide)

end DistributedPis
