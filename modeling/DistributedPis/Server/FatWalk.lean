import DistributedPis.Library.Path
import DistributedPis.Server.Fat32

/-! The walks over a cluster chain, with the sectors they read and the way they end. A walk indexes
the FAT with the entry it found there, upper bits included, and never looks at the number of
entries. -/
namespace DistributedPis
open Library

/-- How a walk ends. Nothing is known of a walk that indexes the FAT out of its bounds. -/
inductive WalkEnd where
  | returned
  | panicked
  | outOfBounds
deriving DecidableEq

namespace Fs

/-- The loop of `read_cluster_chain`: the address and the number of sectors of each read. -/
def readWalk (fs : Fs) : (fuel : ℕ) → Word → Option (List (Word × ℕ) × WalkEnd)
  | 0, _ => none
  | fuel+1, cluster =>
    match fatEntryType cluster with
    | none => some ([], .panicked)
    | some .last => some ([], .returned)
    | some _ =>
      match fs.clusterToLba cluster with
      | none => some ([], .panicked)
      | some lba =>
        if sdReads fs.sectorsPerCluster then
          match fs.fatAt cluster with
          | none => some ([(lba, fs.sectorsPerCluster)], .outOfBounds)
          | some next =>
            (readWalk fs fuel next).map fun w => ((lba, fs.sectorsPerCluster)::w.1, w.2)
        else some ([], .panicked)

/-- The loop of `get_cluster_chain_length`. -/
def lengthWalk (fs : Fs) : (fuel : ℕ) → Word → Option WalkEnd
  | 0, _ => none
  | fuel+1, cluster =>
    match fatEntryType cluster with
    | none => some .panicked
    | some .last =>
      match fs.fatAt cluster with
      | none => some .outOfBounds
      | some next => lengthWalk fs fuel next
    | some _ => some .returned

/-- The reads of a walk put into a block, from `off` on. -/
def load (fs : Fs) (sd : SdCard) : List (Word × ℕ) → ℕ → Region → Region
  | [], _, r => r
  | (lba,n)::reads, off, r =>
    load fs sd reads (off + fs.clusterBytes)
      ⟨fill r.bytes off (sectors sd lba n), r.writes ++ [(off, 512*n)]⟩

section Refines
variable {fs : Fs} {sd : SdCard}

/-- The data that `read_cluster_chain` leaves are the reads of its walk. -/
theorem readClusterChain_eq (fuel : ℕ) (c : Word) (off : ℕ) (r : Region) :
    fs.readClusterChain sd fuel c off r = (fs.readWalk fuel c).bind fun w =>
      if w.2 = .returned then some (fs.load sd w.1 off r) else none := by
  induction fuel generalizing c off r with
  | zero => rfl
  | succ fuel ih =>
    rw [readClusterChain, readWalk]
    cases htype : fatEntryType c with
    | none => simp
    | some type =>
      by_cases hlast : type = .last
      · subst hlast
        simp [load]
      · cases hlba : fs.clusterToLba c with
        | none => cases type <;> simp_all
        | some lba =>
          by_cases hreads : sdReads fs.sectorsPerCluster
          · cases hx : fs.fatAt c with
            | none => cases type <;> simp_all [piSdRead]
            | some x => cases type <;> simp_all [piSdRead, load, Option.bind_map, Function.comp_def]
          · cases type <;> simp_all [piSdRead]

/-- `get_cluster_chain_length` returns exactly where its walk does. -/
theorem getClusterChainLength_isSome (fuel : ℕ) (c : Word) :
    (fs.getClusterChainLength fuel c).isSome ↔ fs.lengthWalk fuel c = some .returned := by
  induction fuel generalizing c with
  | zero => simp [getClusterChainLength, lengthWalk]
  | succ fuel ih =>
    rw [getClusterChainLength, lengthWalk]
    cases htype : fatEntryType c with
    | none => simp
    | some type =>
      by_cases hlast : type = .last
      · subst hlast
        cases hx : fs.fatAt c with
        | none => simp
        | some x =>
          rw [← ih x]
          cases hn : fs.getClusterChainLength fuel x <;> simp [hn]
      · cases type <;> simp_all

end Refines

/-- Where `read_cluster_chain` does not go on to the entry of a cluster. -/
def ReadStops (fs : Fs) (c : Word) : Prop :=
  fatEntryType c = none ∨ fatEntryType c = some .last ∨ fs.clusterToLba c = none ∨
    sdReads fs.sectorsPerCluster = false

instance (fs : Fs) : DecidablePred fs.ReadStops :=
  fun _ => inferInstanceAs (Decidable (_ ∨ _ ∨ _ ∨ _))

/-- Where `get_cluster_chain_length` does not. -/
def LengthStops (c : Word) : Prop := fatEntryType c ≠ some .last

instance : DecidablePred LengthStops := fun _ => inferInstanceAs (Decidable (¬_))

/-- The cluster a walk goes to, if it does not stop. -/
def nextCluster (fs : Fs) (stops : Word → Prop) [DecidablePred stops] (c : Word) : Option Word :=
  if stops c then none else some (fs.fat c.toNat)

/-- The clusters that the walk from `c` comes to are entries of the FAT, or it stops there, and it
never comes back to one of them. -/
def Sound (fs : Fs) (stops : Word → Prop) [DecidablePred stops] (c : Word) : Prop :=
  ∀ xs x, Path (fs.nextCluster stops) (some c) xs (some x) →
    x ∉ xs ∧ (stops x ∨ x.toNat < fs.fatLen)

section Walks
variable {fs : Fs} {stops : Word → Prop} [DecidablePred stops] {c : Word} {cs : List Word}

/-- The walk from `c` over `cs`, within the FAT. -/
def Walks (fs : Fs) (stops : Word → Prop) [DecidablePred stops] (c : Word) (cs : List Word) :
    Prop :=
  Path (fs.nextCluster stops) (some c) cs none ∧ ∀ x ∈ cs, stops x ∨ x.toNat < fs.fatLen

theorem walks_stop (h : stops c) : fs.Walks stops c [c] :=
  ⟨⟨rfl, if_pos h⟩, fun _ hx => .inl (List.mem_singleton.mp hx ▸ h)⟩

theorem walks_cons (h : ¬stops c) (hc : c.toNat < fs.fatLen)
    (hrest : fs.Walks stops (fs.fat c.toNat) cs) : fs.Walks stops c (c::cs) := by
  refine ⟨⟨rfl, ?_⟩, fun x hx => ?_⟩
  · rw [nextCluster, if_neg h]
    exact hrest.1
  · obtain rfl | hx := List.mem_cons.mp hx
    · exact .inr hc
    · exact hrest.2 x hx

/-- A walk stops at once, or goes on within the FAT. -/
theorem walks_cases (h : fs.Walks stops c cs) :
    (stops c ∧ cs = [c]) ∨ ∃ rest, cs = c::rest ∧ ¬stops c ∧ c.toNat < fs.fatLen ∧
      fs.Walks stops (fs.fat c.toNat) rest := by
  obtain ⟨hpath,hin⟩ := h
  cases cs with
  | nil => cases hpath
  | cons x rest =>
    obtain ⟨hx,hpath⟩ := hpath
    obtain rfl := Option.some.inj hx
    by_cases hstop : stops c
    · rw [nextCluster, if_pos hstop] at hpath
      cases rest with
      | nil => exact .inl ⟨hstop,rfl⟩
      | cons y rest => cases hpath.1
    · rw [nextCluster, if_neg hstop] at hpath
      have hc := (hin c (List.mem_cons_self ..)).resolve_left hstop
      exact .inr ⟨rest, rfl, hstop, hc, hpath, fun y hy => hin y (List.mem_cons_of_mem _ hy)⟩

/-- A sound walk ends, and comes to no more clusters than there are entries, and one. -/
theorem Sound.walks (h : fs.Sound stops c) :
    ∃ cs, fs.Walks stops c cs ∧ cs.length ≤ fs.fatLen+1 := by
  have hentries : ∀ xs x, Path (fs.nextCluster stops) (some c) xs (some x) →
      fs.nextCluster stops x ≠ none →
      x ∈ (Finset.range fs.fatLen).image (BitVec.ofNat 32) := by
    intro xs x hx hnext
    have hstop : ¬stops x := fun hstop => hnext (if_pos hstop)
    have hlt := (h xs x hx).2.resolve_left hstop
    exact Finset.mem_image.mpr ⟨x.toNat, Finset.mem_range.mpr hlt, BitVec.eq_of_toNat_eq (by simp)⟩
  obtain ⟨cs,hpath,hlen⟩ := path_ends (fun xs x hx => (h xs x hx).1) hentries
  refine ⟨cs, ⟨hpath, fun x hx => ?_⟩, hlen.trans (Nat.succ_le_succ ?_)⟩
  · obtain ⟨as,bs,rfl⟩ := List.append_of_mem hx
    obtain ⟨_,has,rfl,-⟩ := path_append.mp hpath
    exact (h as x has).2
  · exact Finset.card_image_le.trans (Finset.card_range _).le

theorem Walks.sound (h : fs.Walks stops c cs) : fs.Sound stops c := by
  intro xs x hx
  obtain ⟨zs,rfl⟩ := path_splits hx h.1
  refine ⟨?_, h.2 x (List.mem_append_right _ (List.mem_cons_self ..))⟩
  have hnodup := path_nodup h.1
  exact fun hmem => List.disjoint_of_nodup_append hnodup hmem (List.mem_cons_self ..)

end Walks

section Ends
variable {fs : Fs} {c : Word} {cs : List Word} {fuel : ℕ}

theorem readWalk_stop (fuel : ℕ) (h : fs.ReadStops c) :
    ∃ e, fs.readWalk (fuel+1) c = some ([],e) ∧ e ≠ .outOfBounds := by
  rw [readWalk]
  by_cases hlast : fatEntryType c = some .last
  · exact ⟨.returned, by rw [hlast], by decide⟩
  · refine ⟨.panicked, ?_, by decide⟩
    cases htype : fatEntryType c with
    | none => rfl
    | some type =>
      cases hlba : fs.clusterToLba c with
      | none => cases type <;> simp_all
      | some lba => cases type <;> simp_all [ReadStops]

/-- Where a walk does not stop it reads the cluster before it takes its entry. -/
theorem readWalk_next (fuel : ℕ) (h : ¬fs.ReadStops c) :
    ∃ lba, fs.readWalk (fuel+1) c = match fs.fatAt c with
      | none => some ([(lba, fs.sectorsPerCluster)], .outOfBounds)
      | some next =>
        (fs.readWalk fuel next).map fun w => ((lba, fs.sectorsPerCluster)::w.1, w.2) := by
  simp only [ReadStops, not_or, Bool.not_eq_false] at h
  obtain ⟨htype,hlast,hlba,hreads⟩ := h
  obtain ⟨type,htype⟩ := Option.ne_none_iff_exists'.mp htype
  obtain ⟨lba,hlba⟩ := Option.ne_none_iff_exists'.mp hlba
  refine ⟨lba, ?_⟩
  rw [readWalk]
  cases type <;> simp_all

theorem readWalk_of_walks (h : fs.Walks fs.ReadStops c cs) (hfuel : cs.length ≤ fuel) :
    ∃ w, fs.readWalk fuel c = some w ∧ w.2 ≠ .outOfBounds := by
  induction cs generalizing c fuel with
  | nil => cases h.1
  | cons x cs ih =>
    obtain ⟨fuel,rfl⟩ := Nat.exists_eq_add_of_le' (Nat.one_le_of_lt hfuel)
    obtain ⟨hstop,-⟩ | ⟨rest,hcs,hstop,hc,hrest⟩ := walks_cases h
    · obtain ⟨e,he,hne⟩ := readWalk_stop fuel hstop
      exact ⟨_,he,hne⟩
    · obtain ⟨-,rfl⟩ := List.cons.inj hcs
      obtain ⟨lba,hround⟩ := readWalk_next fuel hstop
      obtain ⟨w,hw,hne⟩ := ih hrest (Nat.le_of_succ_le_succ hfuel)
      refine ⟨((lba, fs.sectorsPerCluster)::w.1, w.2), ?_, hne⟩
      rw [hround, fatAt, if_pos hc]
      exact congrArg (Option.map _) hw

theorem walks_of_readWalk {w : List (Word × ℕ) × WalkEnd} (h : fs.readWalk fuel c = some w)
    (hw : w.2 ≠ .outOfBounds) : ∃ cs, fs.Walks fs.ReadStops c cs := by
  induction fuel generalizing c w with
  | zero => cases h
  | succ fuel ih =>
    by_cases hstop : fs.ReadStops c
    · exact ⟨_, walks_stop hstop⟩
    · obtain ⟨lba,hround⟩ := readWalk_next fuel hstop
      rw [hround] at h
      by_cases hc : c.toNat < fs.fatLen
      · rw [fatAt, if_pos hc] at h
        obtain ⟨w,hrest,rfl⟩ := Option.map_eq_some_iff.mp h
        obtain ⟨cs,hcs⟩ := ih hrest hw
        exact ⟨_, walks_cons hstop hc hcs⟩
      · rw [fatAt, if_neg hc] at h
        cases h
        exact absurd rfl hw

theorem lengthWalk_of_walks (h : fs.Walks LengthStops c cs) (hfuel : cs.length ≤ fuel) :
    ∃ e, fs.lengthWalk fuel c = some e ∧ e ≠ .outOfBounds := by
  induction cs generalizing c fuel with
  | nil => cases h.1
  | cons x cs ih =>
    obtain ⟨fuel,rfl⟩ := Nat.exists_eq_add_of_le' (Nat.one_le_of_lt hfuel)
    rw [lengthWalk]
    obtain ⟨hstop,-⟩ | ⟨rest,hcs,hstop,hc,hrest⟩ := walks_cases h
    · cases htype : fatEntryType c with
      | none => exact ⟨_, rfl, by decide⟩
      | some type =>
        cases type with
        | last => exact absurd htype hstop
        | _ => exact ⟨_, rfl, by decide⟩
    · obtain ⟨-,rfl⟩ := List.cons.inj hcs
      rw [not_not.mp hstop, fatAt, if_pos hc]
      exact ih hrest (Nat.le_of_succ_le_succ hfuel)

/-- The walk of `read_cluster_chain` ends within the FAT exactly where it is sound. -/
theorem readWalk_ends_iff :
    (∃ fuel w, fs.readWalk fuel c = some w ∧ w.2 ≠ .outOfBounds) ↔ fs.Sound fs.ReadStops c := by
  constructor
  · rintro ⟨fuel,w,h,hw⟩
    obtain ⟨cs,hcs⟩ := walks_of_readWalk h hw
    exact hcs.sound
  · intro h
    obtain ⟨cs,hcs,-⟩ := h.walks
    exact ⟨cs.length, readWalk_of_walks hcs le_rfl⟩

end Ends

end Fs

end DistributedPis
