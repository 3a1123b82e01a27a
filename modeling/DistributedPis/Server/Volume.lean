import DistributedPis.Server.FatChain

/-! The geometry of a mounted volume. The number of entries is computed as if an entry had 32
bytes, so it is never the number of words that are loaded. -/
namespace DistributedPis
open Library

namespace Fs
variable (fs : Fs)

/-- The first sector behind all copies of the FAT, in a volume that starts at `lbaStart`. -/
def fatsEnd (sd : SdCard) (lbaStart : Word) : ℕ :=
  let b := BootSec.ofBytes (sd lbaStart)
  lbaStart.toNat + b.reservedAreaNsec + b.nfats*b.nsecPerFat

/-- Clusters are ranges of sectors from `first` on that do not overlap, and no address wraps. -/
structure Addressed (first : ℕ) : Prop where
  nonempty : 0 < fs.sectorsPerCluster
  behind : ∀ c : Word, 2 ≤ c.toNat → c.toNat < fs.nEntries → ∃ lba, fs.clusterToLba c = some lba ∧
    lba.toNat = first + (c.toNat-2)*fs.sectorsPerCluster ∧
    lba.toNat + fs.sectorsPerCluster ≤ 2^32
  disjoint : ∀ c c' lba lba', c ≠ c' → 2 ≤ c.toNat → c.toNat < fs.nEntries → 2 ≤ c'.toNat →
    c'.toNat < fs.nEntries → fs.clusterToLba c = some lba → fs.clusterToLba c' = some lba' →
    lba.toNat + fs.sectorsPerCluster ≤ lba'.toNat ∨ lba'.toNat + fs.sectorsPerCluster ≤ lba.toNat

/-- The number of entries is that of the words in the FAT, and the clusters lie behind the FATs. -/
structure Geometry (sd : SdCard) (lbaStart : Word) : Prop where
  entries : fs.nEntries = fs.fatLen
  addressed : fs.Addressed (fatsEnd sd lbaStart)

variable {fs} {sd : SdCard} {lbaStart : Word} {first : ℕ} {c : Word}

/-- What a mounted volume is computed from. -/
theorem fat32Mk_fields (h : fat32Mk sd lbaStart = some fs) :
    (∃ nsec, 0 < sdBytes nsec ∧ sdBytes nsec / 512 ≤ 0xFFFF ∧ fs.fatLen = sdBytes nsec / 4 ∧
      fs.nEntries = nsec*16 % 2^32) ∧
    fs.clusterBeginLba = BitVec.ofNat 32 (fatsEnd sd lbaStart) := by
  unfold fat32Mk at h
  dsimp only at h
  split at h
  · rename_i hok
    obtain ⟨hvol,-,hreads⟩ := hok
    simp only [volumeIdCheck, decide_eq_true_eq] at hvol
    simp only [sdReads, decide_eq_true_eq] at hreads
    obtain rfl := Option.some.inj h
    refine ⟨⟨_, hreads.1, hreads.2, rfl, ?_⟩, ?_⟩
    · dsimp only
      rw [hvol.1]
    · rw [fatsEnd, BitVec.ofNat_add, BitVec.ofNat_add, BitVec.ofNat_toNat, BitVec.setWidth_eq]
  · cases h

/-- There are never as many entries as words. -/
theorem nEntries_ne_fatLen (h : fat32Mk sd lbaStart = some fs) : fs.nEntries ≠ fs.fatLen := by
  obtain ⟨⟨nsec,hpos,hle,hlen,hentries⟩,-⟩ := fat32Mk_fields h
  unfold sdBytes at hpos hle hlen
  omega

theorem nEntries_ge (h : fat32Mk sd lbaStart = some fs) :
    16 ≤ fs.nEntries ∧ fs.nEntries < 2^32 := by
  obtain ⟨⟨nsec,hpos,hle,-,hentries⟩,-⟩ := fat32Mk_fields h
  unfold sdBytes at hpos hle
  omega

/-- The address of a cluster is that of an array of clusters, modulo the width of an address. -/
theorem clusterToLba_eq (h : fs.clusterBeginLba = BitVec.ofNat 32 first) (hc : 2 ≤ c.toNat) :
    fs.clusterToLba c =
      some (BitVec.ofNat 32 (first + (c.toNat-2)*fs.sectorsPerCluster)) := by
  have hsub : c - 2 = BitVec.ofNat 32 (c.toNat-2) := by
    apply BitVec.eq_of_toNat_eq
    have hlt := c.isLt
    have htwo : (2 : Word).toNat = 2 := rfl
    rw [BitVec.toNat_sub, BitVec.toNat_ofNat, htwo]
    omega
  rw [clusterToLba, if_pos (by simpa [BitVec.le_def] using hc), h, hsub, BitVec.ofNat_add,
    BitVec.ofNat_mul]

/-- If the last cluster ends before addresses wrap, so do all. -/
theorem cluster_ends (hend : first + (fs.nEntries-2)*fs.sectorsPerCluster ≤ 2^32)
    (hlo : 2 ≤ c.toNat) (hhi : c.toNat < fs.nEntries) :
    first + (c.toNat-2)*fs.sectorsPerCluster + fs.sectorsPerCluster ≤ 2^32 := by
  have hcell := cell_le (show c.toNat-2 < fs.nEntries-2 by omega) fs.sectorsPerCluster
  omega

theorem clusterToLba_toNat (h : fs.clusterBeginLba = BitVec.ofNat 32 first)
    (hpos : 0 < fs.sectorsPerCluster)
    (hend : first + (fs.nEntries-2)*fs.sectorsPerCluster ≤ 2^32)
    (hlo : 2 ≤ c.toNat) (hhi : c.toNat < fs.nEntries) :
    ∃ lba, fs.clusterToLba c = some lba ∧
      lba.toNat = first + (c.toNat-2)*fs.sectorsPerCluster := by
  have hle := cluster_ends hend hlo hhi
  refine ⟨_, clusterToLba_eq h hlo, ?_⟩
  rw [BitVec.toNat_ofNat, Nat.mod_eq_of_lt (by omega)]

/-- The last cluster of an addressed volume ends before addresses wrap. -/
theorem Addressed.ends (h : fs.Addressed first) (hmin : 3 ≤ fs.nEntries)
    (hmax : fs.nEntries < 2^32) : first + (fs.nEntries-2)*fs.sectorsPerCluster ≤ 2^32 := by
  have hlast : (BitVec.ofNat 32 (fs.nEntries-1)).toNat = fs.nEntries-1 := by
    rw [BitVec.toNat_ofNat]
    omega
  obtain ⟨lba,-,hlba,hend⟩ := h.behind (BitVec.ofNat 32 (fs.nEntries-1)) (by omega) (by omega)
  have hmul : (fs.nEntries-2)*fs.sectorsPerCluster =
      (fs.nEntries-1-2)*fs.sectorsPerCluster + fs.sectorsPerCluster := by
    rw [← Nat.succ_mul]
    congr 1
    omega
  rw [hlast] at hlba
  omega

/-- All addresses are as they should be if the last cluster ends in time. -/
theorem addressed_iff (h : fs.clusterBeginLba = BitVec.ofNat 32 first)
    (hmin : 3 ≤ fs.nEntries) (hmax : fs.nEntries < 2^32) : fs.Addressed first ↔
      0 < fs.sectorsPerCluster ∧ first + (fs.nEntries-2)*fs.sectorsPerCluster ≤ 2^32 := by
  constructor
  · exact fun haddr => ⟨haddr.nonempty, haddr.ends hmin hmax⟩
  · rintro ⟨hpos,hend⟩
    refine ⟨hpos, fun c hlo hhi => ?_, fun c c' lba lba' hne hlo hhi hlo' hhi' hc hc' => ?_⟩
    · obtain ⟨lba,hc,heq⟩ := clusterToLba_toNat h hpos hend hlo hhi
      exact ⟨lba, hc, heq, heq ▸ cluster_ends hend hlo hhi⟩
    · obtain ⟨_,hc₁,heq⟩ := clusterToLba_toNat h hpos hend hlo hhi
      obtain ⟨_,hc₂,heq'⟩ := clusterToLba_toNat h hpos hend hlo' hhi'
      obtain rfl := Option.some.inj (hc₁.symm.trans hc)
      obtain rfl := Option.some.inj (hc₂.symm.trans hc')
      rw [heq, heq']
      have hneq : c.toNat ≠ c'.toNat := fun heq => hne (BitVec.eq_of_toNat_eq heq)
      rcases Nat.lt_or_gt_of_ne hneq with hlt | hlt
      · have hcell := cell_le (show c.toNat-2 < c'.toNat-2 by omega) fs.sectorsPerCluster
        omega
      · have hcell := cell_le (show c'.toNat-2 < c.toNat-2 by omega) fs.sectorsPerCluster
        omega

end Fs

/-- No mounted volume has the geometry: the number of entries is wrong on all of them. The clusters
are addressed by it exactly if they have sectors and the last one ends before addresses wrap. -/
theorem fat32Mk_geometry {sd : SdCard} {lbaStart : Word} {fs : Fs}
    (h : fat32Mk sd lbaStart = some fs) :
    ¬fs.Geometry sd lbaStart ∧
      (fs.Addressed (Fs.fatsEnd sd lbaStart) ↔ 0 < fs.sectorsPerCluster ∧
        Fs.fatsEnd sd lbaStart + (fs.nEntries-2)*fs.sectorsPerCluster ≤ 2^32) := by
  obtain ⟨hmin,hmax⟩ := Fs.nEntries_ge h
  refine ⟨fun hgeo => Fs.nEntries_ne_fatLen h hgeo.entries, ?_⟩
  exact Fs.addressed_iff (Fs.fat32Mk_fields h).2 (by omega) hmax

theorem fat32Mk_geometry_card :
    ¬cardFs.Geometry card 0 ∧ cardFs.Addressed (Fs.fatsEnd card 0) :=
  have h := fat32Mk_geometry card_mk
  ⟨h.1, h.2.mpr (by decide +kernel)⟩

/-- A FAT of one sector has 128 words, not 16. -/
theorem card_entries : fat32Mk card 0 = some cardFs ∧ cardFs.nEntries = 16 ∧
    cardFs.fatLen = 128 ∧ ¬cardFs.Geometry card 0 := by
  refine ⟨card_mk, by decide +kernel, by decide +kernel, fun h => ?_⟩
  exact absurd h.entries (by decide +kernel)

end DistributedPis
