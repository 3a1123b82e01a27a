import DistributedPis.Server.FatDir
import DistributedPis.Server.JobTransfer

/-! The job of the server's Pi from the card (`notmain` in `server.c` and `mbr_read`). The boot record
leads to the partition, its root directory to the file, and the file goes to the client. -/
namespace DistributedPis
open Library

/-- An entry of the partition table: `memiszero` on its 16 bytes. -/
def partEmpty (bs : ℕ → UInt8) (part : ℕ) : Bool := (block bs part 16).all (· = 0)

def partType (bs : ℕ → UInt8) : UInt8 := bs 450

/-- `mbr_part_is_fat32`. -/
def isFat32 (type : UInt8) : Bool := type = 0xb ∨ type = 0xc

/-- The first partition is the only one. -/
def mbrCheck (bs : ℕ → UInt8) : Bool :=
  le16 bs 510 = 0xAA55 ∧ isFat32 (partType bs) ∧ !partEmpty bs 446 ∧ partEmpty bs 462 ∧
  partEmpty bs 478 ∧ partEmpty bs 494

def partLbaStart (bs : ℕ → UInt8) : Word := BitVec.ofNat 32 (read32 bs 454)

def fat32GetRoot (fs : Fs) : PiDirent := ⟨[], [], fs.rootDirFirstCluster, true, 0⟩

/-- There is no result without the file or without a header. -/
def readFunction (fs : Fs) (sd : SdCard) (fuel : ℕ) (root : PiDirent) (name : List UInt8) :
    Option PiFile := do
  let d ← fs.fat32Stat sd fuel root name
  if d.isSome then
    let f ← fs.fat32Read sd fuel root name
    if read32 f.data 0 = 0x12345678 ∧ read32 f.data 8 = 0x80000 then pure f else none
  else none

def jobName : List UInt8 := [74,79,66,49,46,66,73,78]  -- "JOB1.BIN"

/-- `notmain` of the server up to the array that it sends. -/
def serverMessage (sd : SdCard) (fuel : ℕ) (stack : ℕ → UInt8) : Option (List UInt8) := do
  if mbrCheck (sd 0) then
    let fs ← fat32Mk sd (partLbaStart (sd 0))
    let f ← readFunction fs sd fuel (fat32GetRoot fs) jobName
    jobMessage stack (block f.data 0 f.nData)
  else none

/-- The card has one FAT32 partition, whose root directory, with all its entries in the first of the
clusters `cs`, has a file `JOB1.BIN`. The job is the whole file, and it is in one cluster. -/
structure JobOnCard (sd : SdCard) (fs : Fs) (cs : List Word) (d : Dirent) (job : List UInt8) :
    Prop where
  mbr : mbrCheck (sd 0) = true
  mount : fat32Mk sd (partLbaStart (sd 0)) = some fs
  root : fs.ChainFrom fs.rootDirFirstCluster cs
  dir : fs.FirstClusterOnly sd cs
  found : (live (fs.chainDirents sd cs)).find? (fun d => d.name = some jobName) = some d
  file : fs.ChainFrom d.clusterId [d.clusterId]
  covers : d.fileNbytes ≤ fs.clusterBytes
  data : job = (fs.clusterData sd d.clusterId).take d.fileNbytes

section Find
variable {d : Dirent} {ds : List Dirent} {es : List PiDirent}

/-- The first entry with a name is the first conversion with it. -/
theorem Converted.find (h : Converted ds es) {name : List UInt8}
    (hfound : ds.find? (fun d => d.name = some name) = some d) :
    ∃ e, direntConvert d = some e ∧ es.find? (fun e => e.name = name) = some e := by
  induction h with
  | nil => cases hfound
  | @cons d' e ds es he hes ih =>
    have hname := direntConvert_name he
    by_cases hsame : e.name = name
    · rw [List.find?_cons_of_pos (by simp [hname, hsame]), Option.some.injEq] at hfound
      subst hfound
      exact ⟨e, he, List.find?_cons_of_pos (by simp [hsame])⟩
    · rw [List.find?_cons_of_neg (by simp [hname, hsame])] at hfound
      obtain ⟨e',he',hfind⟩ := ih hfound
      exact ⟨e', he', by rw [List.find?_cons_of_neg (by simp [hsame]), hfind]⟩

end Find

section Load
variable {sd : SdCard} {fs : Fs} {cs : List Word} {d : Dirent} {job : List UInt8} {fuel : ℕ}

/-- The header of a file is that of its bytes. -/
theorem header_iff {data : ℕ → UInt8} {n : ℕ} (hlong : 12 ≤ n) :
    HasHeader (block data 0 n) ↔ read32 data 0 = 0x12345678 ∧ read32 data 8 = 0x80000 := by
  have hget (i : ℕ) (hi : i < n) : (block data 0 n).getD i 0 = data i := by
    rw [List.getD_eq_getElem _ _ (by simpa using hi), getElem_block, Nat.zero_add]
  have hword (k v : ℕ) (hk : 4*k+3 < n) (hv : v < 2^32) :
      word32 (block data 0 n) k = BitVec.ofNat 32 v ↔ read32 data (4*k) = v := by
    rw [word32, hget _ (by omega), hget _ (by omega), hget _ (by omega), hget _ (by omega),
      ← read32, ← BitVec.toNat_inj, BitVec.toNat_ofNat, BitVec.toNat_ofNat,
      Nat.mod_eq_of_lt read32_lt, Nat.mod_eq_of_lt hv]
  exact and_congr (hword 0 0x12345678 (by omega) (by omega)) (hword 2 0x80000 (by omega) (by omega))

theorem fat32Stat_job (h : JobOnCard sd fs cs d job) (hfuel : cs.length < fuel) :
    ∃ e, direntConvert d = some e ∧
      fs.fat32Stat sd fuel (fat32GetRoot fs) jobName = some (some e) := by
  have hfs := Fs.fat32Mk_mounted h.mount
  have hdir : (fat32GetRoot fs).isDir = true := rfl
  obtain ⟨es,hes,-,hstat⟩ := Fs.complete_of_first hfs hdir h.root hfuel h.dir
  obtain ⟨e,he,hfind⟩ := hes.find h.found
  exact ⟨e, he, by rw [hstat, ← hfind]; rfl⟩

/-- The job is read as it is on the card. -/
theorem readFunction_job (h : JobOnCard sd fs cs d job) (hfuel : cs.length < fuel)
    (hone : 1 < fuel) (hlong : 12 ≤ job.length) (hhdr : HasHeader job) :
    ∃ f, readFunction fs sd fuel (fat32GetRoot fs) jobName = some f ∧
      block f.data 0 f.nData = job := by
  have hfs := Fs.fat32Mk_mounted h.mount
  obtain ⟨e,he,hstat⟩ := fat32Stat_job h hfuel
  obtain ⟨name,-,rfl⟩ := Option.map_eq_some_iff.mp he
  have hchain : fs.FileChain ⟨name, d.filename, d.clusterId, d.attr = 0x10, d.fileNbytes⟩
      [d.clusterId] := ⟨.inr h.file, by simpa using h.covers⟩
  obtain ⟨f,hread,hsize,hdata,-⟩ := Fs.read_one hfs h.dir.sectors hchain hone hstat
  have hjob : block f.data 0 f.nData = job := by
    rw [hsize, hdata, h.data, Fs.chainData, List.flatMap_singleton]
  refine ⟨f, ?_, hjob⟩
  rw [← hjob, header_iff (by rwa [← hjob, block_length] at hlong)] at hhdr
  rw [readFunction, hstat]
  simp only [Option.bind_eq_bind, Option.bind_some, Option.isSome_some, if_true, hread, if_pos hhdr,
    Option.pure_def]

end Load

/-- What the client loads begins with the job that is on the card. -/
def CardDelivered (sd : SdCard) (fuel : ℕ) (stack buf : ℕ → UInt8) (pre job : List UInt8) : Prop :=
  ∃ message code, serverMessage sd fuel stack = some message ∧
    clientJob (pre ++ jobLine message) buf = some code ∧ job <+: code

/-- A job comes from the card to the client exactly if the transfer does not end within it. -/
theorem cardDelivered_iff {sd : SdCard} {fs : Fs} {cs : List Word} {d : Dirent} {fuel : ℕ}
    {stack buf : ℕ → UInt8} {pre job : List UInt8} (h : JobOnCard sd fs cs d job)
    (hfuel : cs.length < fuel) (hone : 1 < fuel) (hpre : BrokenOff startSeq pre)
    (hlong : 12 ≤ job.length) (hhdr : HasHeader job) :
    CardDelivered sd fuel stack buf pre job ↔
      job.length ≤ 4086 ∧ ∀ p', p' ++ [58] <+: job → ¬StaleStop buf p' := by
  have hmessage : serverMessage sd fuel stack = jobMessage stack job := by
    obtain ⟨f,hf,hjob⟩ := readFunction_job h hfuel hone hlong hhdr
    rw [serverMessage, if_pos h.mbr, h.mount]
    simp only [Option.bind_eq_bind, Option.bind_some, hf, hjob]
  rw [CardDelivered, hmessage]
  exact jobDelivered_iff hpre hlong hhdr

/-- A card whose only partition starts at sector 1. Cluster 2 is the root directory, with `JOB1.BIN`
in it, and cluster 3 the file, which is only a header. -/
def jobCard : SdCard := fun lba =>
  if lba = 0 then sparse [(450,0x0b),(454,1),(510,0x55),(511,0xAA)]
  else if lba = 1 then sparse [(12,2),(13,1),(14,2),(16,2),(32,1),(36,1),(44,2),(48,1),(50,6),
    (66,0x29),(510,0x55),(511,0xAA)]
  else if lba = 2 then sparse [(0,0x52),(1,0x52),(2,0x61),(3,0x41),(484,0x72),(485,0x72),
    (486,0x41),(487,0x61),(510,0x55),(511,0xaa)]
  else if lba = 3 then sparse [(8,0xff),(9,0xff),(10,0xff),(11,0x0f),(12,0xff),(13,0xff),
    (14,0xff),(15,0x0f)]
  else if lba = 5 then sparse [(0,74),(1,79),(2,66),(3,49),(4,32),(5,32),(6,32),(7,32),(8,66),
    (9,73),(10,78),(11,0x20),(26,3),(28,12)]
  else if lba = 6 then sparse [(0,0x78),(1,0x56),(2,0x34),(3,0x12),(10,8)]
  else fun _ => 7

def jobCardFs : Fs := (fat32Mk jobCard 1).get (by decide +kernel)

def jobDirent : Dirent := block (jobCard 5) 0 32

theorem job_on_card : JobOnCard jobCard jobCardFs [2] jobDirent
    [0x78,0x56,0x34,0x12, 0,0,0,0, 0,0,0x08,0] where
  mbr := by decide +kernel
  mount := (Option.some_get _).symm
  root := .last (by decide +kernel) rfl (by decide +kernel)
  dir := ⟨by decide +kernel, List.isChain_singleton _, rfl, by decide +kernel⟩
  found := by decide +kernel
  file := .last (by decide +kernel) rfl (by decide +kernel)
  covers := by decide +kernel
  data := by decide +kernel

theorem cardDelivered_iff_header : CardDelivered jobCard 2 (fun _ => 7) (fun _ => 0) [83,84,1]
    [0x78,0x56,0x34,0x12, 0,0,0,0, 0,0,0x08,0] :=
  (cardDelivered_iff job_on_card (by decide) (by decide) ⟨[(2,1)], by decide, rfl⟩ (by decide)
    (by decide)).mpr
    ⟨by decide, fun _ _ hstale => absurd hstale.2 (show ¬(0 : UInt8) = 68 by decide)⟩

end DistributedPis
