import DistributedPis.Library.Bytes
import DistributedPis.Library.Words

/-! The FAT32 driver of the job server (`fat32.c` and its helpers). An array that is read outside of
its bounds, a failed assertion or a panic gives no result. A write behind a block of the heap goes
to memory that the bump allocator has not handed out yet; all writes are recorded. -/
namespace DistributedPis
open Library

/-- The bytes of every sector. -/
abbrev SdCard := Word → ℕ → UInt8

def le16 (bs : ℕ → UInt8) (i : ℕ) : ℕ := (bs i).toNat + 256*(bs (i+1)).toNat

/-- The fields of the boot sector that the driver reads. -/
structure BootSec where
  bytesPerSec : ℕ
  secPerCluster : ℕ
  reservedAreaNsec : ℕ
  nfats : ℕ
  maxFiles : ℕ
  fsNsec : ℕ
  zero : ℕ
  nsecInFs : ℕ
  nsecPerFat : ℕ
  firstCluster : Word
  infoSecNum : ℕ
  backupBootLoc : ℕ
  extendedSig : ℕ
  sig : ℕ

def BootSec.ofBytes (bs : ℕ → UInt8) : BootSec where
  bytesPerSec := le16 bs 11
  secPerCluster := (bs 13).toNat
  reservedAreaNsec := le16 bs 14
  nfats := (bs 16).toNat
  maxFiles := le16 bs 17
  fsNsec := le16 bs 19
  zero := le16 bs 22
  nsecInFs := read32 bs 32
  nsecPerFat := read32 bs 36
  firstCluster := BitVec.ofNat 32 (read32 bs 44)
  infoSecNum := le16 bs 48
  backupBootLoc := le16 bs 50
  extendedSig := (bs 66).toNat
  sig := le16 bs 510

/-- `is_pow2`, which holds for 0 too. -/
def isPow2 (x : ℕ) : Bool := (BitVec.ofNat 32 x &&& -BitVec.ofNat 32 x) = BitVec.ofNat 32 x

def volumeIdCheck (b : BootSec) : Bool :=
  b.bytesPerSec = 512 ∧ b.nfats = 2 ∧ b.sig = 0xAA55 ∧ isPow2 b.secPerCluster ∧ b.maxFiles = 0 ∧
  b.fsNsec = 0 ∧ b.zero = 0 ∧ b.nsecInFs ≠ 0 ∧ b.infoSecNum = 1 ∧ b.backupBootLoc = 6 ∧
  b.extendedSig = 0x29

def fsinfoCheck (bs : ℕ → UInt8) : Bool :=
  read32 bs 0 = 0x41615252 ∧ read32 bs 484 = 0x61417272 ∧ read32 bs 508 = 0xaa550000

/-- The size of a transfer in bytes, as the driver of the card computes it. -/
def sdBytes (nsec : ℕ) : ℕ := nsec*512 % 2^32

/-- The driver reads at least one block and at most 65535. -/
def sdReads (nsec : ℕ) : Bool := 0 < sdBytes nsec ∧ sdBytes nsec / 512 ≤ 0xFFFF

/-- The file system, with the size of a sector from the boot sector. `fat` has `fatLen` entries. -/
structure Fs where
  lbaStart : Word
  fatBeginLba : Word
  clusterBeginLba : Word
  sectorsPerCluster : ℕ
  rootDirFirstCluster : Word
  fat : ℕ → Word
  fatLen : ℕ
  nEntries : ℕ
  bytesPerSec : ℕ

def fat32Mk (sd : SdCard) (lbaStart : Word) : Option Fs :=
  let b := BootSec.ofBytes (sd lbaStart)
  if volumeIdCheck b ∧ fsinfoCheck (sd (lbaStart+1)) ∧ sdReads b.nsecPerFat then
    let fatBeginLba := lbaStart + BitVec.ofNat 32 b.reservedAreaNsec
    some {
      lbaStart, fatBeginLba
      clusterBeginLba := fatBeginLba + BitVec.ofNat 32 (b.nfats*b.nsecPerFat)
      sectorsPerCluster := b.secPerCluster
      rootDirFirstCluster := b.firstCluster
      fat := fun k => BitVec.ofNat 32
        (read32 (sd (fatBeginLba + BitVec.ofNat 32 (k/128))) (4*(k%128)))
      fatLen := sdBytes b.nsecPerFat / 4
      nEntries := b.nsecPerFat*(b.bytesPerSec/32) % 2^32
      bytesPerSec := b.bytesPerSec }
  else none

inductive FatEntry where
  | free
  | reserved
  | bad
  | used
  | last
deriving DecidableEq

/-- The upper four bits of an entry do not count. -/
def low28 (x : Word) : Word := (x <<< 4) >>> 4

/-- `fat32_fat_entry_type`, without a result where it panics. -/
def fatEntryType (x : Word) : Option FatEntry :=
  if low28 x = 0 then some .free
  else if low28 x = 1 then some .reserved
  else if low28 x = 0xFFFFFF7 then some .bad
  else if 2 ≤ low28 x ∧ low28 x ≤ 0xFFFFFEF then some .used
  else if 0xFFFFFF8 ≤ low28 x ∧ low28 x ≤ 0xFFFFFFF then some .last
  else none

/-- A block of the heap and what is behind it, and the offset and length of all writes. -/
structure Region where
  bytes : ℕ → UInt8
  writes : List (ℕ × ℕ)

/-- `kmalloc` clears what it hands out. -/
def kmalloced : Region := ⟨fun _ => 0, []⟩

/-- The bytes of `nsec` sectors. -/
def sectors (sd : SdCard) (lba : Word) (nsec : ℕ) : List UInt8 :=
  (List.range nsec).flatMap fun i => block (sd (lba + BitVec.ofNat 32 i)) 0 512

def piSdRead (sd : SdCard) (lba : Word) (nsec off : ℕ) (r : Region) : Option Region :=
  if sdReads nsec then
    some ⟨fill r.bytes off (sectors sd lba nsec), r.writes ++ [(off, 512*nsec)]⟩
  else none

namespace Fs

/-- `fat[cluster]`. -/
def fatAt (fs : Fs) (cluster : Word) : Option Word :=
  if cluster.toNat < fs.fatLen then some (fs.fat cluster.toNat) else none

def clusterToLba (fs : Fs) (cluster : Word) : Option Word :=
  if 2 ≤ cluster then
    some (fs.clusterBeginLba + (cluster-2)*BitVec.ofNat 32 fs.sectorsPerCluster)
  else none

def clusterBytes (fs : Fs) : ℕ := fs.sectorsPerCluster*fs.bytesPerSec

/-- The loop gives up without `fuel`. -/
def getClusterChainLength (fs : Fs) : (fuel : ℕ) → Word → Option ℕ
  | 0, _ => none
  | fuel+1, cluster => do
    let type ← fatEntryType cluster
    if type = .last then
      let next ← fs.fatAt cluster
      let count ← getClusterChainLength fs fuel next
      pure (count+1)
    else pure 1

def readClusterChain (fs : Fs) (sd : SdCard) : (fuel : ℕ) → Word → ℕ → Region → Option Region
  | 0, _, _, _ => none
  | fuel+1, cluster, off, r => do
    let type ← fatEntryType cluster
    if type ≠ .last then
      let lba ← fs.clusterToLba cluster
      let r ← piSdRead sd lba fs.sectorsPerCluster off r
      let next ← fs.fatAt cluster
      readClusterChain fs sd fuel next (off + fs.clusterBytes) r
    else pure r

end Fs

/-- A directory entry of 32 bytes. -/
abbrev Dirent := List UInt8

namespace Dirent

def filename (d : Dirent) : List UInt8 := d.take 11
def attr (d : Dirent) : UInt8 := d.getD 11 0
def hiStart (d : Dirent) : ℕ := le16 (fun i => d.getD i 0) 20
def loStart (d : Dirent) : ℕ := le16 (fun i => d.getD i 0) 26
def fileNbytes (d : Dirent) : ℕ := read32 (fun i => d.getD i 0) 28

/-- `fat32_cluster_id`. -/
def clusterId (d : Dirent) : Word := BitVec.ofNat 32 (65536*d.hiStart + d.loStart)

/-- `fat32_dirent_is_lfn`. -/
def isLfn (d : Dirent) : Bool := d.attr = 0x0f

/-- `fat32_dirent_free`. -/
def free (d : Dirent) : Bool :=
  if d.attr = 0x0f then d.getD 0 0 &&& 0xe5 = 0xe5
  else d.getD 0 0 = 0 ∨ d.getD 0 0 = 0xe5

/-- The entries that the loops pass over. -/
def skipped (d : Dirent) : Bool := d.free ∨ d.isLfn ∨ d.attr = 0x08

/-- The base of the name without the spaces at its end. -/
def base (d : Dirent) : List UInt8 := (d.filename.take 8).rdropWhile (· = 32)

/-- `to_8dot3` puts the point before the start of its array if the base is blank. -/
def to8dot3 (d : Dirent) : Option (List UInt8) :=
  if d.base = [] then none else some (d.base ++ 46 :: d.filename.drop 8)

end Dirent

/-- A string ends at the first zero byte. -/
def cstr (s : List UInt8) : List UInt8 := s.takeWhile (· ≠ 0)

/-- `fat32_dirent_name`. -/
def Dirent.name (d : Dirent) : Option (List UInt8) := d.to8dot3.map cstr

structure PiDirent where
  name : List UInt8
  rawName : List UInt8
  clusterId : Word
  isDir : Bool
  nbytes : ℕ
deriving DecidableEq

def direntConvert (d : Dirent) : Option PiDirent :=
  d.name.map fun name => ⟨name, d.filename, d.clusterId, d.attr = 0x10, d.fileNbytes⟩

/-- The loop of `fat32_readdir`. -/
def listDirents : List Dirent → Option (List PiDirent)
  | [] => some []
  | d::ds =>
    if d.skipped then listDirents ds
    else do
      let e ← direntConvert d
      let es ← listDirents ds
      pure (e::es)

/-- The loop of `fat32_stat`, with the null pointer as `none`. -/
def findDirent (filename : List UInt8) : List Dirent → Option (Option PiDirent)
  | [] => some none
  | d::ds =>
    if d.skipped then findDirent filename ds
    else do
      let name ← d.name
      if cstr filename = name then
        let e ← direntConvert d
        pure (some e)
      else findDirent filename ds

/-- What `fat32_read` returns, and the writes it made to the data. -/
structure PiFile where
  data : ℕ → UInt8
  nAlloc : ℕ
  nData : ℕ
  writes : List (ℕ × ℕ)

namespace Fs

def getDirents (fs : Fs) (sd : SdCard) (fuel : ℕ) (cluster : Word) : Option (List Dirent) := do
  let nClusters ← fs.getClusterChainLength fuel cluster
  let nBytes := nClusters*fs.clusterBytes % 2^32
  let r ← fs.readClusterChain sd fuel cluster 0 kmalloced
  pure ((List.range (nBytes/32)).map fun i => block r.bytes (32*i) 32)

def fat32Readdir (fs : Fs) (sd : SdCard) (fuel : ℕ) (dir : PiDirent) : Option (List PiDirent) := do
  if dir.isDir then
    let ds ← fs.getDirents sd fuel dir.clusterId
    listDirents ds
  else none

def fat32Stat (fs : Fs) (sd : SdCard) (fuel : ℕ) (dir : PiDirent) (filename : List UInt8) :
    Option (Option PiDirent) := do
  if dir.isDir then
    let ds ← fs.getDirents sd fuel dir.clusterId
    findDirent filename ds
  else none

/-- `fat32_read`; the callers ask `fat32_stat` first, and there is no result without an entry. -/
def fat32Read (fs : Fs) (sd : SdCard) (fuel : ℕ) (dir : PiDirent) (filename : List UInt8) :
    Option PiFile := do
  if dir.isDir then
    let _ ← fs.getDirents sd fuel dir.clusterId
    let found ← fs.fat32Stat sd fuel dir filename
    let dirent ← found
    let clusterLength ← fs.getClusterChainLength fuel dirent.clusterId
    let nBytes := clusterLength*fs.clusterBytes % 2^32
    let r ← fs.readClusterChain sd fuel dirent.clusterId 0 kmalloced
    pure ⟨r.bytes, nBytes, dirent.nbytes, r.writes⟩
  else none

end Fs

end DistributedPis
