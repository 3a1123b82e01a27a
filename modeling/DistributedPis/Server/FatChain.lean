import DistributedPis.Server.FatWalk

/-! The cluster chains of a FAT, and the data of a file. The loop that counts the clusters of a
chain tests for the last cluster the wrong way round, so it counts one for every chain. -/
namespace DistributedPis
open Library

namespace Fs

/-- The clusters of a chain, the first one `c`. A link is the entry without its upper bits. -/
inductive ChainFrom (fs : Fs) : Word → List Word → Prop
  | last {c x : Word} (hc : fatEntryType c = some .used) (hx : fs.fatAt c = some x)
    (htype : fatEntryType x = some .last) : ChainFrom fs c [c]
  | next {c x : Word} {cs : List Word} (hc : fatEntryType c = some .used)
    (hx : fs.fatAt c = some x) (htype : fatEntryType x = some .used)
    (hrest : ChainFrom fs (low28 x) cs) : ChainFrom fs c (c::cs)

/-- The bytes of a cluster. -/
def clusterData (fs : Fs) (sd : SdCard) (c : Word) : List UInt8 :=
  sectors sd (fs.clusterBeginLba + (c-2)*BitVec.ofNat 32 fs.sectorsPerCluster)
    fs.sectorsPerCluster

/-- The sectors of a cluster. -/
def clusterSectors (fs : Fs) (c : Word) : Word × ℕ :=
  (fs.clusterBeginLba + (c-2)*BitVec.ofNat 32 fs.sectorsPerCluster, fs.sectorsPerCluster)

/-- What `fat32_mk` makes sure of. -/
structure Mounted (fs : Fs) : Prop where
  bytesPerSec : fs.bytesPerSec = 512
  small : fs.sectorsPerCluster < 256
  fatLen : fs.fatLen < 2^27

theorem fat32Mk_mounted {sd : SdCard} {lbaStart : Word} {fs : Fs}
    (h : fat32Mk sd lbaStart = some fs) : fs.Mounted := by
  unfold fat32Mk at h
  dsimp only at h
  split at h
  · rename_i hok
    obtain ⟨hvol,-,hreads⟩ := hok
    simp only [volumeIdCheck, decide_eq_true_eq] at hvol
    simp only [sdReads, decide_eq_true_eq] at hreads
    obtain rfl := Option.some.inj h
    refine ⟨hvol.1, UInt8.toNat_lt _, ?_⟩
    dsimp only
    omega
  · cases h

section Entries
variable {x c : Word}

theorem low28_toNat (x : Word) : (low28 x).toNat = x.toNat % 2^28 := by
  rw [low28, BitVec.toNat_ushiftRight, BitVec.toNat_shiftLeft, Nat.shiftRight_eq_div_pow,
    Nat.shiftLeft_eq]
  omega

theorem used_ge (h : fatEntryType c = some .used) : 2 ≤ c := by
  have hlow : 2 ≤ low28 c := by
    unfold fatEntryType at h
    split_ifs at h with h0 h1 hbad hused hlast <;> cases h
    exact hused.1
  rw [BitVec.le_def, low28_toNat] at hlow
  rw [BitVec.le_def]
  exact hlow.trans (Nat.mod_le ..)

theorem sdReads_of_small {n : ℕ} (h : n < 256) : sdReads n = true ↔ n ≠ 0 := by
  rw [sdReads, decide_eq_true_iff, sdBytes]
  omega

end Entries

section Walk
variable {fs : Fs} {sd : SdCard} {fuel off : ℕ} {c x : Word} {cs : List Word} {r r' : Region}

theorem ChainFrom.used (h : ChainFrom fs c cs) : fatEntryType c = some .used := by
  cases h <;> assumption

/-- The count of every chain. -/
theorem getClusterChainLength_eq (hfuel : 0 < fuel) (hc : fatEntryType c = some .used) :
    fs.getClusterChainLength fuel c = some 1 := by
  obtain ⟨fuel,rfl⟩ := Nat.exists_eq_add_of_le' hfuel
  simp [getClusterChainLength, hc]

theorem sectors_length (sd : SdCard) (lba : Word) (n : ℕ) : (sectors sd lba n).length = 512*n := by
  simp [sectors, Nat.mul_comm]

theorem clusterData_length (hfs : fs.Mounted) : (fs.clusterData sd c).length = fs.clusterBytes := by
  rw [clusterData, sectors_length, clusterBytes, hfs.bytesPerSec, Nat.mul_comm]

/-- One round of the loop. -/
theorem readClusterChain_used (hfs : fs.Mounted) (hc : fatEntryType c = some .used) :
    fs.readClusterChain sd (fuel+1) c off r =
      if fs.sectorsPerCluster ≠ 0 then
        (fs.fatAt c).bind fun next => fs.readClusterChain sd fuel next (off + fs.clusterBytes)
          ⟨fill r.bytes off (fs.clusterData sd c), r.writes ++ [(off, fs.clusterBytes)]⟩
      else none := by
  have hlba : fs.clusterToLba c =
      some (fs.clusterBeginLba + (c-2)*BitVec.ofNat 32 fs.sectorsPerCluster) :=
    if_pos (used_ge hc)
  rw [readClusterChain, hc]
  simp only [Option.bind_eq_bind, Option.bind_some, hlba, piSdRead,
    sdReads_of_small hfs.small]
  rw [if_pos (by decide)]
  by_cases h0 : fs.sectorsPerCluster = 0
  · simp [h0]
  · simp [h0, clusterData, clusterBytes, hfs.bytesPerSec, Nat.mul_comm]

theorem readClusterChain_last (hx : fatEntryType x = some .last) :
    fs.readClusterChain sd (fuel+1) x off r = some r := by
  simp [readClusterChain, hx]

theorem load_writes (sd : SdCard) (reads : List (Word × ℕ)) (off : ℕ) (r : Region) :
    r.writes <+: (fs.load sd reads off r).writes := by
  induction reads generalizing off r with
  | nil => exact List.prefix_refl _
  | cons x reads ih =>
    have hrest := ih (off + fs.clusterBytes)
      ⟨fill r.bytes off (sectors sd x.1 x.2), r.writes ++ [(off, 512*x.2)]⟩
    exact (List.prefix_append _ _).trans hrest

/-- The loop only adds to the writes. -/
theorem readClusterChain_writes (h : fs.readClusterChain sd fuel c off r = some r') :
    r.writes <+: r'.writes := by
  rw [readClusterChain_eq] at h
  obtain ⟨w,-,h⟩ := Option.bind_eq_some_iff.mp h
  split at h
  · cases h
    exact load_writes sd w.1 off r
  · cases h

/-- The entries of the chain have no upper bits, up to its last one. -/
def Links (fs : Fs) (cs : List Word) : Prop := cs.IsChain fun c d => fs.fatAt c = some d

/-- The bytes of a chain. -/
def chainData (fs : Fs) (sd : SdCard) (cs : List Word) : List UInt8 :=
  cs.flatMap (fs.clusterData sd)

theorem ChainFrom.head (h : ChainFrom fs c cs) : ∃ rest, cs = c::rest := by
  cases h <;> exact ⟨_,rfl⟩

theorem readWalk_last (hx : fatEntryType x = some .last) :
    fs.readWalk (fuel+1) x = some ([], .returned) := by
  rw [readWalk, hx]

/-- One round at a cluster in use. -/
theorem readWalk_used (hfs : fs.Mounted) (hc : fatEntryType c = some .used) :
    fs.readWalk (fuel+1) c =
      if fs.sectorsPerCluster ≠ 0 then match fs.fatAt c with
        | none => some ([fs.clusterSectors c], .outOfBounds)
        | some next => (fs.readWalk fuel next).map fun w => (fs.clusterSectors c::w.1, w.2)
      else some ([], .panicked) := by
  have hlba : fs.clusterToLba c = some (fs.clusterSectors c).1 := if_pos (used_ge hc)
  rw [readWalk, hc]
  simp only [hlba, sdReads_of_small hfs.small]
  rfl

/-- A walk over a chain without upper bits reads its clusters in order. -/
theorem readWalk_links (hfs : fs.Mounted) (h0 : fs.sectorsPerCluster ≠ 0) (h : fs.ChainFrom c cs)
    (hlinks : fs.Links cs) (hfuel : cs.length < fuel) :
    fs.readWalk fuel c = some (cs.map fs.clusterSectors, .returned) := by
  induction h generalizing fuel with
  | @last c x hc hx htype =>
    obtain ⟨fuel,rfl⟩ := Nat.exists_eq_add_of_le' (show 2 ≤ fuel from hfuel)
    rw [readWalk_used hfs hc, if_pos h0, hx]
    simp only [readWalk_last htype]
    rfl
  | @next c x cs hc hx htype hrest ih =>
    obtain ⟨fuel,rfl⟩ := Nat.exists_eq_add_of_le' (Nat.one_le_of_lt hfuel)
    obtain ⟨rest,rfl⟩ := hrest.head
    obtain ⟨hlink,hlinks⟩ := List.isChain_cons_cons.mp hlinks
    rw [readWalk_used hfs hc, if_pos h0, hlink]
    simp only [ih hlinks (Nat.lt_of_succ_lt_succ hfuel)]
    rfl

/-- Without sectors in a cluster the card gives up before the first read. -/
theorem readWalk_empty (hfs : fs.Mounted) (h0 : fs.sectorsPerCluster = 0) (h : fs.ChainFrom c cs) :
    fs.readWalk (fuel+1) c = some ([], .panicked) := by
  rw [readWalk_used hfs h.used, if_neg (not_not.mpr h0)]

/-- A walk over a chain with upper bits leaves the FAT. -/
theorem readWalk_upper (hfs : fs.Mounted) (h : fs.ChainFrom c cs) (hlinks : ¬fs.Links cs)
    {w : List (Word × ℕ) × WalkEnd} (hw : fs.readWalk fuel c = some w) :
    w.2 = if fs.sectorsPerCluster ≠ 0 then .outOfBounds else .panicked := by
  by_cases h0 : fs.sectorsPerCluster = 0
  · rw [if_neg (not_not.mpr h0)]
    cases fuel with
    | zero => cases hw
    | succ fuel =>
      rw [readWalk_empty hfs h0 h] at hw
      cases hw
      rfl
  rw [if_pos h0]
  induction h generalizing fuel w with
  | @last c x hc hx htype => exact absurd (List.isChain_singleton c) hlinks
  | @next c x cs hc hx htype hrest ih =>
    cases fuel with
    | zero => cases hw
    | succ fuel =>
      rw [readWalk_used hfs hc, if_pos h0, hx] at hw
      obtain ⟨w,hrestw,rfl⟩ := Option.map_eq_some_iff.mp hw
      change w.2 = .outOfBounds
      by_cases hlow : low28 x = x
      · obtain ⟨rest,rfl⟩ := hrest.head
        rw [hlow] at ih hlinks
        exact ih (fun hl => hlinks (List.isChain_cons_cons.mpr ⟨hx,hl⟩)) hrestw
      · -- the entry is not below `2^28`, and the FAT has fewer entries
        have hout : fs.fatAt x = none := by
          refine if_neg (fun hlt => hlow (BitVec.eq_of_toNat_eq ?_))
          rw [low28_toNat, Nat.mod_eq_of_lt ((hlt.trans hfs.fatLen).trans (by decide))]
        cases fuel with
        | zero => cases hrestw
        | succ fuel =>
          rw [readWalk_used hfs htype, if_pos h0, hout] at hrestw
          cases hrestw
          rfl

/-- The reads of a chain put into a block are its bytes. -/
theorem load_clusters (sd : SdCard) (hfs : fs.Mounted) (cs : List Word) (off : ℕ) (r : Region) :
    ∃ ws, fs.load sd (cs.map fs.clusterSectors) off r =
      ⟨fill r.bytes off (fs.chainData sd cs), r.writes ++ ws⟩ := by
  induction cs generalizing off r with
  | nil => exact ⟨[], by simp [load, chainData]⟩
  | cons c cs ih =>
    obtain ⟨ws,hws⟩ := ih (off + fs.clusterBytes)
      ⟨fill r.bytes off (fs.clusterData sd c), r.writes ++ [(off, 512*fs.sectorsPerCluster)]⟩
    refine ⟨(off, 512*fs.sectorsPerCluster)::ws, ?_⟩
    have hlen : (fs.clusterData sd c).length = fs.clusterBytes := clusterData_length hfs
    have hload : fs.load sd ((c::cs).map fs.clusterSectors) off r = _ := hws
    rw [hload, ← hlen, fill_fill]
    simp [chainData]

/-- A chain without upper bits is read in order. -/
theorem readClusterChain_links (sd : SdCard) (hfs : fs.Mounted) (h0 : fs.sectorsPerCluster ≠ 0)
    (h : ChainFrom fs c cs) (hlinks : fs.Links cs) (hfuel : cs.length < fuel) (off : ℕ)
    (r : Region) :
    ∃ ws, fs.readClusterChain sd fuel c off r =
      some ⟨fill r.bytes off (fs.chainData sd cs), r.writes ++ ws⟩ := by
  obtain ⟨ws,hws⟩ := load_clusters sd hfs cs off r
  refine ⟨ws, ?_⟩
  rw [readClusterChain_eq, readWalk_links hfs h0 h hlinks hfuel, Option.bind_some, if_pos rfl, hws]

/-- The loop follows an entry with upper bits out of the FAT. -/
theorem readClusterChain_upper (hfs : fs.Mounted) (h : ChainFrom fs c cs)
    (hlinks : ¬fs.Links cs) (fuel off : ℕ) (r : Region) :
    fs.readClusterChain sd fuel c off r = none := by
  rw [readClusterChain_eq]
  cases hw : fs.readWalk fuel c with
  | none => rfl
  | some w =>
    have hend := readWalk_upper hfs h hlinks hw
    rw [Option.bind_some, if_neg]
    rw [hend]
    split <;> decide

end Walk

section Read
variable {fs : Fs} {sd : SdCard} {fuel : ℕ} {c : Word} {cs : List Word} {e dir : PiDirent}
  {filename : List UInt8} {ds : List Dirent}

/-- The chain of a file: none for an empty file without a cluster. -/
structure FileChain (fs : Fs) (e : PiDirent) (cs : List Word) : Prop where
  chain : (e.clusterId = 0 ∧ e.nbytes = 0 ∧ cs = []) ∨ fs.ChainFrom e.clusterId cs
  covers : e.nbytes ≤ cs.length*fs.clusterBytes

/-- The file has the data of the chain, and nothing is written behind the bytes allocated. -/
def ReadsExactly (fs : Fs) (sd : SdCard) (e : PiDirent) (cs : List Word) (f : PiFile) : Prop :=
  f.nData = e.nbytes ∧ block f.data 0 e.nbytes = (fs.chainData sd cs).take e.nbytes ∧
    ∀ w ∈ f.writes, w.1+w.2 ≤ f.nAlloc

theorem last_ge {x : Word} (h : fatEntryType x = some .last) : 2^27 ≤ x.toNat := by
  have hlow : (0xFFFFFF8 : Word) ≤ low28 x := by
    unfold fatEntryType at h
    split_ifs at h with h0 h1 hbad hused hlast <;> cases h
    exact hlast.1
  rw [BitVec.le_def, low28_toNat] at hlow
  have hmod := Nat.mod_le x.toNat (2^28)
  have hval : (0xFFFFFF8 : Word).toNat = 0xFFFFFF8 := rfl
  omega

/-- A directory can only be read with clusters that are not empty. -/
theorem sectorsPerCluster_ne_zero (hfs : fs.Mounted) (h : fs.getDirents sd fuel c = some ds) :
    fs.sectorsPerCluster ≠ 0 := by
  obtain ⟨n,hn,h⟩ := Option.bind_eq_some_iff.mp h
  obtain ⟨r,hr,-⟩ := Option.bind_eq_some_iff.mp h
  cases fuel with
  | zero => cases hn
  | succ fuel =>
    obtain ⟨type,htype,hr⟩ := Option.bind_eq_some_iff.mp hr
    by_cases hlast : type = .last
    · subst hlast
      rw [getClusterChainLength, htype] at hn
      have hout : fs.fatAt c = none :=
        if_neg (Nat.not_lt.mpr ((hfs.fatLen.le).trans (last_ge htype)))
      simp [hout] at hn
    · rw [if_pos hlast] at hr
      obtain ⟨lba,-,hr⟩ := Option.bind_eq_some_iff.mp hr
      obtain ⟨r',hr',-⟩ := Option.bind_eq_some_iff.mp hr
      unfold piSdRead at hr'
      split at hr'
      · rename_i hreads
        exact (sdReads_of_small hfs.small).mp hreads
      · cases hr'

/-- What is left of `fat32_read` once the entry is found. -/
theorem fat32Read_eq (hstat : fs.fat32Stat sd fuel dir filename = some (some e)) :
    fs.fat32Read sd fuel dir filename =
      (fs.getClusterChainLength fuel e.clusterId).bind fun n =>
        (fs.readClusterChain sd fuel e.clusterId 0 kmalloced).map fun r =>
          ⟨r.bytes, n*fs.clusterBytes % 2^32, e.nbytes, r.writes⟩ := by
  have hfound := hstat
  unfold fat32Stat at hfound
  split at hfound
  · rename_i hdir
    obtain ⟨ds,hds,-⟩ := Option.bind_eq_some_iff.mp hfound
    rw [fat32Read, if_pos hdir, hds, hstat]
    simp only [Option.bind_eq_bind, Option.bind_some, Option.pure_def, Option.map_eq_bind]
    rfl
  · cases hfound

theorem found_sectors (hfs : fs.Mounted)
    (hstat : fs.fat32Stat sd fuel dir filename = some (some e)) : fs.sectorsPerCluster ≠ 0 := by
  unfold fat32Stat at hstat
  split at hstat
  · obtain ⟨ds,hds,-⟩ := Option.bind_eq_some_iff.mp hstat
    exact sectorsPerCluster_ne_zero hfs hds
  · cases hstat

theorem clusterBytes_lt (hfs : fs.Mounted) : fs.clusterBytes < 2^32 := by
  have := hfs.small
  rw [clusterBytes, hfs.bytesPerSec]
  omega

/-- A file with a chain of one cluster is exact. -/
theorem read_one (hfs : fs.Mounted) (h0 : fs.sectorsPerCluster ≠ 0)
    (h : fs.FileChain e [c]) (hfuel : 1 < fuel)
    (hstat : fs.fat32Stat sd fuel dir filename = some (some e)) :
    ∃ f, fs.fat32Read sd fuel dir filename = some f ∧ fs.ReadsExactly sd e [c] f := by
  obtain ⟨⟨_,_,hnil⟩ | hchain,hcovers⟩ := h
  · cases hnil
  obtain ⟨fuel,rfl⟩ := Nat.exists_eq_add_of_le' hfuel
  have hlen : (fs.clusterData sd e.clusterId).length = fs.clusterBytes := clusterData_length hfs
  have hcount : fs.getClusterChainLength (fuel+2) e.clusterId = some 1 :=
    getClusterChainLength_eq (Nat.succ_pos _) hchain.used
  cases hchain with
  | last hc hx htype =>
    rw [fat32Read_eq hstat, hcount, Option.bind_some, readClusterChain_used hfs hc, if_pos h0, hx,
      Option.bind_some, readClusterChain_last htype]
    rw [List.length_singleton, Nat.one_mul] at hcovers
    refine ⟨_, rfl, rfl, ?_, ?_⟩
    · rw [chainData, List.flatMap_singleton]
      rw [block_fill_drop _ _ (by omega), List.drop_zero]
    · intro w hw
      rw [List.mem_singleton.mp hw, Nat.one_mul, Nat.mod_eq_of_lt (clusterBytes_lt hfs)]
      exact (Nat.zero_add _).le
  | next hc hx htype hrest => exact absurd hrest (by rintro ⟨⟩)

/-- The second cluster of a chain is written behind the bytes allocated. -/
theorem read_more (hfs : fs.Mounted) (h : fs.FileChain e cs) (hne : cs.length ≠ 1)
    (hstat : fs.fat32Stat sd fuel dir filename = some (some e)) {f : PiFile}
    (hread : fs.fat32Read sd fuel dir filename = some f) : ¬fs.ReadsExactly sd e cs f := by
  rintro ⟨-,-,hwrites⟩
  rw [fat32Read_eq hstat] at hread
  obtain ⟨n,hn,hread⟩ := Option.bind_eq_some_iff.mp hread
  obtain ⟨r,hr,rfl⟩ := Option.map_eq_some_iff.mp hread
  have h0 := found_sectors hfs hstat
  obtain ⟨⟨hzero,-,rfl⟩ | hchain,-⟩ := h
  · -- an empty file has no cluster to read
    rw [hzero] at hr
    cases fuel with
    | zero => cases hr
    | succ fuel => simp [readClusterChain, fatEntryType, low28, clusterToLba] at hr
  · cases fuel with
    | zero => cases hr
    | succ fuel =>
      have hcount : fs.getClusterChainLength (fuel+1) e.clusterId = some 1 :=
        getClusterChainLength_eq (Nat.succ_pos _) hchain.used
      rw [hcount] at hn
      cases hn
      cases hchain with
      | last hc hx htype => exact hne rfl
      | next hc hx htype hrest =>
        rw [readClusterChain_used hfs hc, if_pos h0, hx, Option.bind_some] at hr
        cases fuel with
        | zero => cases hr
        | succ fuel =>
          rw [readClusterChain_used hfs htype, if_pos h0] at hr
          obtain ⟨next,-,hr⟩ := Option.bind_eq_some_iff.mp hr
          have hmem := (readClusterChain_writes hr).subset
            (List.mem_append_right _ (List.mem_singleton_self _))
          have hle := hwrites _ hmem
          rw [Nat.one_mul, Nat.mod_eq_of_lt (clusterBytes_lt hfs)] at hle
          dsimp only at hle
          have hpos : 0 < fs.clusterBytes := by
            rw [clusterBytes, hfs.bytesPerSec]
            omega
          omega

end Read

end Fs

/-- A file that `fat32_stat` finds is read exactly and in bounds if and only if its chain has one
cluster. -/
theorem fat32Read_exact_iff {sd : SdCard} {lbaStart : Word} {fs : Fs} {fuel : ℕ}
    {dir e : PiDirent} {filename : List UInt8} {cs : List Word}
    (hmk : fat32Mk sd lbaStart = some fs)
    (hstat : fs.fat32Stat sd fuel dir filename = some (some e)) (hchain : fs.FileChain e cs)
    (hfuel : cs.length < fuel) :
    (∃ f, fs.fat32Read sd fuel dir filename = some f ∧ fs.ReadsExactly sd e cs f) ↔
      cs.length = 1 := by
  have hfs := Fs.fat32Mk_mounted hmk
  constructor
  · rintro ⟨f,hread,hexact⟩
    by_contra hne
    exact Fs.read_more hfs hchain hne hstat hread hexact
  · intro hone
    obtain ⟨c,rfl⟩ := List.length_eq_one_iff.mp hone
    exact Fs.read_one hfs (Fs.found_sectors hfs hstat) hchain (hone ▸ hfuel) hstat

/-- A sector that is zero but for a few bytes. -/
def sparse (bs : List (ℕ × UInt8)) (i : ℕ) : UInt8 := (bs.lookup i).getD 0

/-- A card with one sector for each cluster. The root directory is cluster 2, `A.BIN` has one byte
in cluster 3 and `B.BIN` has 513 bytes in the clusters 4 and 5. The clusters 6 and 7 are a directory
of deleted entries, with `C.BIN` after them. -/
def card : SdCard := fun lba =>
  if lba = 0 then sparse [(12,2),(13,1),(14,2),(16,2),(32,1),(36,1),(44,2),(48,1),(50,6),
    (66,0x29),(510,0x55),(511,0xAA)]
  else if lba = 1 then sparse [(0,0x52),(1,0x52),(2,0x61),(3,0x41),(484,0x72),(485,0x72),
    (486,0x41),(487,0x61),(510,0x55),(511,0xaa)]
  else if lba = 2 then sparse [(8,0xff),(9,0xff),(10,0xff),(11,0x0f),(12,0xff),(13,0xff),
    (14,0xff),(15,0x0f),(16,5),(20,0xff),(21,0xff),(22,0xff),(23,0x0f),
    (24,7),(28,0xff),(29,0xff),(30,0xff),(31,0x0f)]
  else if lba = 4 then sparse [(0,65),(1,32),(2,32),(3,32),(4,32),(5,32),(6,32),(7,32),(8,66),
    (9,73),(10,78),(11,0x20),(26,3),(28,1),
    (32,66),(33,32),(34,32),(35,32),(36,32),(37,32),(38,32),(39,32),(40,66),(41,73),(42,78),
    (43,0x20),(58,4),(60,1),(61,2)]
  else if lba = 8 then fun _ => 0xe5
  else if lba = 9 then sparse [(0,67),(1,32),(2,32),(3,32),(4,32),(5,32),(6,32),(7,32),(8,66),
    (9,73),(10,78),(11,0x20),(26,3),(28,1)]
  else fun _ => 7

def cardFs : Fs := (fat32Mk card 0).get (by decide +kernel)

theorem card_mk : fat32Mk card 0 = some cardFs := (Option.some_get _).symm

def rootDir : PiDirent := ⟨[], [], 2, true, 0⟩

def fileA : PiDirent := ⟨[65,46,66,73,78], [65,32,32,32,32,32,32,32,66,73,78], 3, false, 1⟩

def fileB : PiDirent := ⟨[66,46,66,73,78], [66,32,32,32,32,32,32,32,66,73,78], 4, false, 513⟩

theorem fat32Read_exact_one :
    ∃ f, cardFs.fat32Read card 10 rootDir fileA.name = some f ∧
      cardFs.ReadsExactly card fileA [3] f := by
  have hchain : cardFs.FileChain fileA [3] :=
    ⟨.inr (.last (by decide +kernel) rfl (by decide +kernel)), by decide +kernel⟩
  exact (fat32Read_exact_iff card_mk (by decide +kernel) hchain (by decide)).mpr rfl

/-- The second cluster of `B.BIN` is written behind its block. -/
theorem second_cluster_overflows :
    fat32Mk card 0 = some cardFs ∧
    cardFs.fat32Stat card 10 rootDir fileB.name = some (some fileB) ∧
    cardFs.FileChain fileB [4,5] ∧
    ¬∃ f, cardFs.fat32Read card 10 rootDir fileB.name = some f ∧
      cardFs.ReadsExactly card fileB [4,5] f := by
  have hstat : cardFs.fat32Stat card 10 rootDir fileB.name = some (some fileB) := by
    decide +kernel
  have hchain : cardFs.FileChain fileB [4,5] := by
    refine ⟨.inr (.next (by decide +kernel) rfl (by decide +kernel) ?_), by decide +kernel⟩
    exact .last (by decide +kernel) rfl (by decide +kernel)
  refine ⟨card_mk, hstat, hchain, ?_⟩
  rintro ⟨f,hread,hexact⟩
  exact Fs.read_more (Fs.fat32Mk_mounted card_mk) hchain (by decide) hstat hread hexact

/-- With every FAT and from every cluster, a walk that only comes to entries of the FAT, and to none
of them twice, ends within the FAT. It takes at most one round more than there are entries. -/
theorem chainWalks_end (fs : Fs) (c : Word) :
    (fs.Sound fs.ReadStops c →
      ∃ w, fs.readWalk (fs.fatLen+1) c = some w ∧ w.2 ≠ .outOfBounds) ∧
    (fs.Sound Fs.LengthStops c →
      ∃ e, fs.lengthWalk (fs.fatLen+1) c = some e ∧ e ≠ .outOfBounds) := by
  constructor
  · intro h
    obtain ⟨cs,hcs,hlen⟩ := h.walks
    exact Fs.readWalk_of_walks hcs hlen
  · intro h
    obtain ⟨cs,hcs,hlen⟩ := h.walks
    exact Fs.lengthWalk_of_walks hcs hlen

/-- Both walks over the second file of the card. -/
theorem chainWalks_end_card :
    (∃ w, cardFs.readWalk (cardFs.fatLen+1) 4 = some w ∧ w.2 ≠ .outOfBounds) ∧
    ∃ e, cardFs.lengthWalk (cardFs.fatLen+1) 4 = some e ∧ e ≠ .outOfBounds := by
  have hread : cardFs.Walks cardFs.ReadStops 4 [4,5,0x0fffffff] :=
    Fs.walks_cons (by decide +kernel) (by decide +kernel)
      (Fs.walks_cons (by decide +kernel) (by decide +kernel) (Fs.walks_stop (by decide +kernel)))
  have hlength : cardFs.Walks Fs.LengthStops 4 [4] := Fs.walks_stop (by decide +kernel)
  exact ⟨(chainWalks_end cardFs 4).1 hread.sound, (chainWalks_end cardFs 4).2 hlength.sound⟩

/-- The card with a cluster 2 that is its own next one, and with a next cluster that is not in the
FAT. -/
def loopFs : Fs := { cardFs with fat := fun _ => 2 }

def farFs : Fs := { cardFs with fat := fun _ => 200 }

/-- One walk never ends, and one leaves the FAT. So does the count from a mark of a last cluster. -/
theorem chainWalks_fail :
    (∀ fuel, loopFs.readWalk fuel 2 = none) ∧
    (farFs.readWalk 2 2).map Prod.snd = some .outOfBounds ∧
    cardFs.lengthWalk 1 0x0fffffff = some .outOfBounds := by
  refine ⟨fun fuel => ?_, by decide +kernel, by decide +kernel⟩
  induction fuel with
  | zero => rfl
  | succ fuel ih =>
    obtain ⟨lba,hround⟩ := Fs.readWalk_next fuel (show ¬loopFs.ReadStops 2 by decide +kernel)
    have hx : loopFs.fatAt 2 = some 2 := by decide +kernel
    rw [hround, hx]
    exact congrArg (Option.map _) ih

end DistributedPis
