import DistributedPis.Server.FatChain

/-! Directory listings and lookups. Both scan a buffer that is sized by the count of the clusters,
which is one for every chain, so the entries of the second and later clusters are never seen. -/
namespace DistributedPis
open Library

/-- The entries that the loops do not pass over. -/
def live (ds : List Dirent) : List Dirent := ds.filter fun d => !d.skipped

/-- Entry by entry, the conversion. -/
def Converted (ds : List Dirent) (es : List PiDirent) : Prop :=
  List.Forall₂ (fun d e => direntConvert d = some e) ds es

section Scan
variable {d : Dirent} {ds ds' : List Dirent} {e : PiDirent} {es : List PiDirent}

theorem live_cons_skipped (h : d.skipped = true) : live (d::ds) = live ds := by
  simp [live, h]

theorem live_cons_live (h : d.skipped = false) : live (d::ds) = d :: live ds := by
  simp [live, h]

theorem listDirents_iff : listDirents ds = some es ↔ Converted (live ds) es := by
  induction ds generalizing es with
  | nil =>
    cases es with
    | nil => exact iff_of_true rfl .nil
    | cons e es => exact iff_of_false (by simp [listDirents]) nofun
  | cons d ds ih =>
    cases hd : d.skipped with
    | true =>
      rw [listDirents, if_pos hd, live_cons_skipped hd]
      exact ih
    | false =>
      rw [listDirents, if_neg (by simp [hd]), live_cons_live hd]
      constructor
      · intro h
        obtain ⟨e,he,h⟩ := Option.bind_eq_some_iff.mp h
        obtain ⟨es',hes,h⟩ := Option.bind_eq_some_iff.mp h
        cases h
        exact .cons he (ih.mp hes)
      · intro h
        cases h with
        | cons he hes =>
          rw [he, ih.mpr hes]
          rfl

theorem direntConvert_name (h : direntConvert d = some e) : d.name = some e.name := by
  obtain ⟨name,hname,rfl⟩ := Option.map_eq_some_iff.mp h
  exact hname

/-- Every entry with a base has a conversion. -/
theorem direntConvert_isSome : (∃ e, direntConvert d = some e) ↔ d.base ≠ [] := by
  unfold direntConvert Dirent.name Dirent.to8dot3
  split <;> simp [*]

theorem exists_converted (h : ∀ d ∈ ds, d.base ≠ []) : ∃ es, Converted ds es := by
  induction ds with
  | nil => exact ⟨[],.nil⟩
  | cons d ds ih =>
    obtain ⟨e,he⟩ := direntConvert_isSome.mpr (h d (List.mem_cons_self ..))
    obtain ⟨es,hes⟩ := ih fun d hd => h d (List.mem_cons_of_mem _ hd)
    exact ⟨e::es, .cons he hes⟩

theorem Converted.base (h : Converted ds es) : ∀ d ∈ ds, d.base ≠ [] := by
  induction h with
  | nil => exact fun _ hd => absurd hd List.not_mem_nil
  | cons he _ ih => exact List.forall_mem_cons.mpr ⟨direntConvert_isSome.mp ⟨_,he⟩, ih⟩

/-- The lookup finds the first conversion with the name. -/
theorem findDirent_eq (h : Converted (live ds) es) (filename : List UInt8) :
    findDirent filename ds = some (es.find? fun e => e.name = cstr filename) := by
  induction ds generalizing es with
  | nil =>
    cases h
    rfl
  | cons d ds ih =>
    cases hd : d.skipped with
    | true =>
      rw [live_cons_skipped hd] at h
      rw [findDirent, if_pos hd]
      exact ih h
    | false =>
      rw [live_cons_live hd] at h
      cases h with
      | @cons _ e _ es he hes =>
        rw [findDirent, if_neg (by simp [hd]), direntConvert_name he]
        by_cases hname : cstr filename = e.name
        · simp [hname, he]
        · simp [hname, Ne.symm hname, ih hes]

/-- No entry comes after those that give all conversions. -/
theorem converted_append (h : Converted ds es) (h' : Converted (ds ++ ds') es) : ds' = [] := by
  have hlen := h.length_eq
  have hlen' := h'.length_eq
  rw [List.length_append] at hlen'
  exact List.length_eq_zero_iff.mp (by omega)

end Scan

namespace Fs
variable {fs : Fs} {sd : SdCard} {fuel : ℕ} {c : Word} {cs : List Word} {dir : PiDirent}

/-- The entries in a cluster. -/
def clusterDirents (fs : Fs) (sd : SdCard) (c : Word) : List Dirent :=
  (List.range (fs.clusterBytes/32)).map fun i => ((fs.clusterData sd c).drop (32*i)).take 32

/-- The entries in all clusters of a chain. -/
def chainDirents (fs : Fs) (sd : SdCard) (cs : List Word) : List Dirent :=
  cs.flatMap (fs.clusterDirents sd)

/-- The buffer holds the entries of the first cluster only. -/
theorem getDirents_eq (hfs : fs.Mounted) (h0 : fs.sectorsPerCluster ≠ 0)
    (h : fs.ChainFrom c cs) (hlinks : fs.Links cs) (hfuel : cs.length < fuel) :
    fs.getDirents sd fuel c = some (fs.clusterDirents sd c) := by
  obtain ⟨ws,hread⟩ := readClusterChain_links sd hfs h0 h hlinks hfuel 0 kmalloced
  obtain ⟨rest,rfl⟩ := h.head
  rw [getDirents, getClusterChainLength_eq (Nat.zero_lt_of_lt hfuel) h.used]
  simp only [Option.bind_eq_bind, Option.bind_some, hread, Option.pure_def, Option.some.injEq,
    Nat.one_mul, Nat.mod_eq_of_lt (clusterBytes_lt hfs), clusterDirents]
  apply List.map_congr_left
  intro i hi
  have hfit : 32*i + 32 ≤ (fs.clusterData sd c).length := by
    rw [clusterData_length hfs]
    have := List.mem_range.mp hi
    omega
  rw [chainData, List.flatMap_cons, block_fill_drop _ _ (by rw [List.length_append]; omega),
    List.drop_append_of_le_length (by omega), List.take_append_of_le_length (by simp; omega)]

theorem getDirents_none (hfs : fs.Mounted) (h : fs.ChainFrom c cs)
    (hbad : fs.sectorsPerCluster = 0 ∨ ¬fs.Links cs) : fs.getDirents sd fuel c = none := by
  rcases hbad with h0 | hlinks
  · by_contra hsome
    obtain ⟨ds,hds⟩ := Option.ne_none_iff_exists'.mp hsome
    exact sectorsPerCluster_ne_zero hfs hds h0
  · rw [getDirents, readClusterChain_upper hfs h hlinks]
    cases fs.getClusterChainLength fuel c <;> rfl

/-- The listing has the conversions of all live entries of the chain, and a lookup finds the first
of them with its name. -/
def Complete (fs : Fs) (sd : SdCard) (fuel : ℕ) (dir : PiDirent) (cs : List Word) : Prop :=
  ∃ es, Converted (live (fs.chainDirents sd cs)) es ∧ fs.fat32Readdir sd fuel dir = some es ∧
    ∀ filename, fs.fat32Stat sd fuel dir filename =
      some (es.find? fun e => e.name = cstr filename)

/-- The clusters can be read, their links have no upper bits, all live entries are in the first
cluster, and their names have a base. -/
structure FirstClusterOnly (fs : Fs) (sd : SdCard) (cs : List Word) : Prop where
  sectors : fs.sectorsPerCluster ≠ 0
  links : fs.Links cs
  first : live (fs.chainDirents sd cs.tail) = []
  base : ∀ d ∈ live (fs.chainDirents sd cs), d.base ≠ []

theorem complete_of_first (hfs : fs.Mounted) (hdir : dir.isDir = true)
    (h : fs.ChainFrom dir.clusterId cs) (hfuel : cs.length < fuel)
    (hfirst : fs.FirstClusterOnly sd cs) : fs.Complete sd fuel dir cs := by
  have hds : fs.getDirents sd fuel dir.clusterId = some (fs.clusterDirents sd dir.clusterId) :=
    getDirents_eq hfs hfirst.sectors h hfirst.links hfuel
  obtain ⟨es,hes⟩ := exists_converted hfirst.base
  have hlive : live (fs.chainDirents sd cs) = live (fs.clusterDirents sd dir.clusterId) := by
    obtain ⟨rest,rfl⟩ := h.head
    have hrest := hfirst.first
    rw [List.tail_cons] at hrest
    rw [chainDirents, List.flatMap_cons, live, List.filter_append, ← live, ← live,
      ← chainDirents, hrest, List.append_nil]
  rw [hlive] at hes
  refine ⟨es, hlive ▸ hes, ?_, fun filename => ?_⟩
  · rw [fat32Readdir, if_pos hdir, hds]
    exact listDirents_iff.mpr hes
  · rw [fat32Stat, if_pos hdir, hds]
    exact findDirent_eq hes filename

theorem first_of_complete (hfs : fs.Mounted) (hdir : dir.isDir = true)
    (h : fs.ChainFrom dir.clusterId cs) (hfuel : cs.length < fuel)
    (hcomplete : fs.Complete sd fuel dir cs) : fs.FirstClusterOnly sd cs := by
  obtain ⟨es,hes,hread,-⟩ := hcomplete
  rw [fat32Readdir, if_pos hdir] at hread
  obtain ⟨ds,hds,hread⟩ := Option.bind_eq_some_iff.mp hread
  have hlinks : fs.Links cs := by
    by_contra hbad
    rw [getDirents_none hfs h (.inr hbad)] at hds
    cases hds
  have h0 := sectorsPerCluster_ne_zero hfs hds
  obtain rfl := Option.some.inj ((getDirents_eq hfs h0 h hlinks hfuel).symm.trans hds)
  refine ⟨h0, hlinks, ?_, hes.base⟩
  obtain ⟨rest,rfl⟩ := h.head
  rw [chainDirents, List.flatMap_cons, live, List.filter_append] at hes
  exact converted_append (listDirents_iff.mp hread) hes

end Fs

/-- Listings and lookups of a directory are complete if and only if all its live entries are in its
first cluster, and both can be read and named. -/
theorem fat32Readdir_complete_iff {sd : SdCard} {lbaStart : Word} {fs : Fs} {fuel : ℕ}
    {dir : PiDirent} {cs : List Word} (hmk : fat32Mk sd lbaStart = some fs)
    (hdir : dir.isDir = true) (h : fs.ChainFrom dir.clusterId cs) (hfuel : cs.length < fuel) :
    fs.Complete sd fuel dir cs ↔ fs.FirstClusterOnly sd cs :=
  ⟨Fs.first_of_complete (Fs.fat32Mk_mounted hmk) hdir h hfuel,
    Fs.complete_of_first (Fs.fat32Mk_mounted hmk) hdir h hfuel⟩

theorem fat32Readdir_complete_root : cardFs.Complete card 10 rootDir [2] := by
  have hchain : cardFs.ChainFrom rootDir.clusterId [2] :=
    .last (by decide +kernel) rfl (by decide +kernel)
  refine (fat32Readdir_complete_iff card_mk rfl hchain (by decide)).mpr ⟨?_, ?_, ?_, ?_⟩
  · decide +kernel
  · exact List.isChain_singleton _
  · rfl
  · decide +kernel

/-- A directory of two clusters. -/
def subDir : PiDirent := ⟨[], [], 6, true, 0⟩

/-- `C.BIN` is in the second cluster of its directory, and it is neither listed nor found. -/
theorem second_cluster_missed :
    cardFs.ChainFrom subDir.clusterId [6,7] ∧ cardFs.fat32Readdir card 10 subDir = some [] ∧
    ¬cardFs.Complete card 10 subDir [6,7] := by
  have hchain : cardFs.ChainFrom subDir.clusterId [6,7] := by
    refine .next (by decide +kernel) rfl (by decide +kernel) ?_
    exact .last (by decide +kernel) rfl (by decide +kernel)
  refine ⟨hchain, by decide +kernel, fun hcomplete => ?_⟩
  have hfirst := (Fs.first_of_complete (Fs.fat32Mk_mounted card_mk) rfl hchain (by decide)
    hcomplete).first
  exact absurd hfirst (by decide +kernel)

end DistributedPis
