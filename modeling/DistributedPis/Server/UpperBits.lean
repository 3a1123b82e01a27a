import DistributedPis.Server.FatChain

/-! Two FATs that differ only in the upper bits of their entries. The test of an entry leaves these
bits out, but the walk takes the whole entry for the next cluster: one upper bit on the chain leads
it to another sector, and from there out of the FAT. -/
namespace DistributedPis
open Library

namespace Fs

/-- Both walks end, within their FATs and in the same way, after the same reads. -/
def SameReads (fs fs' : Fs) (fuel : ℕ) (c : Word) : Prop :=
  ∃ w, w.2 ≠ .outOfBounds ∧ fs.readWalk fuel c = some w ∧ fs'.readWalk fuel c = some w

section Upper
variable {fs : Fs} {fat' : ℕ → Word} {c x x' : Word} {cs : List Word}

/-- The type of an entry does not depend on its upper bits. -/
theorem fatEntryType_congr (h : low28 x' = low28 x) : fatEntryType x' = fatEntryType x := by
  simp only [fatEntryType, h]

theorem fatAt_upper (hlow : ∀ k < fs.fatLen, low28 (fat' k) = low28 (fs.fat k))
    (hx : fs.fatAt c = some x) :
    ∃ x', Fs.fatAt { fs with fat := fat' } c = some x' ∧ low28 x' = low28 x := by
  unfold fatAt at hx
  split at hx
  · rename_i hc
    cases hx
    exact ⟨_, if_pos hc, hlow _ hc⟩
  · cases hx

/-- Nor do the chains. -/
theorem ChainFrom.upper (hlow : ∀ k < fs.fatLen, low28 (fat' k) = low28 (fs.fat k))
    (h : fs.ChainFrom c cs) : Fs.ChainFrom { fs with fat := fat' } c cs := by
  induction h with
  | last hc hx htype =>
    obtain ⟨x',hx',hlow'⟩ := fatAt_upper hlow hx
    exact .last hc hx' (by rw [fatEntryType_congr hlow', htype])
  | next hc hx htype hrest ih =>
    obtain ⟨x',hx',hlow'⟩ := fatAt_upper hlow hx
    exact .next hc hx' (by rw [fatEntryType_congr hlow', htype]) (hlow' ▸ ih)

end Upper

end Fs

/-- Two FATs that differ only in upper bits are read alike along a chain if and only if the clusters
have no sectors, or no entry on the way has an upper bit in either of them. -/
theorem readWalk_upperBits_iff {fs : Fs} {fat' : ℕ → Word} {c : Word} {cs : List Word} {fuel : ℕ}
    (hfs : fs.Mounted) (hlow : ∀ k < fs.fatLen, low28 (fat' k) = low28 (fs.fat k))
    (hchain : fs.ChainFrom c cs) (hfuel : cs.length < fuel) :
    fs.SameReads { fs with fat := fat' } fuel c ↔
      fs.sectorsPerCluster = 0 ∨ (fs.Links cs ∧ Fs.Links { fs with fat := fat' } cs) := by
  have hfs' : Fs.Mounted { fs with fat := fat' } := ⟨hfs.bytesPerSec, hfs.small, hfs.fatLen⟩
  have hchain' := hchain.upper hlow
  by_cases h0 : fs.sectorsPerCluster = 0
  · obtain ⟨fuel,rfl⟩ := Nat.exists_eq_add_of_le' (Nat.one_le_of_lt hfuel)
    exact iff_of_true ⟨_, by decide, Fs.readWalk_empty hfs h0 hchain,
      Fs.readWalk_empty hfs' h0 hchain'⟩ (.inl h0)
  · rw [or_iff_right h0]
    constructor
    · rintro ⟨w,hin,hw,hw'⟩
      constructor
      · by_contra hlinks
        exact hin ((Fs.readWalk_upper hfs hchain hlinks hw).trans (if_pos h0))
      · by_contra hlinks
        exact hin ((Fs.readWalk_upper hfs' hchain' hlinks hw').trans (if_pos h0))
    · rintro ⟨hlinks,hlinks'⟩
      exact ⟨_, by simp, Fs.readWalk_links hfs h0 hchain hlinks hfuel,
        Fs.readWalk_links hfs' h0 hchain' hlinks' hfuel⟩

/-- An upper bit at the entry of a cluster. -/
def setUpper (fat : ℕ → Word) (c k : ℕ) : Word := if k = c then fat k ||| 0x10000000 else fat k

theorem card_chainB : cardFs.ChainFrom 4 [4,5] :=
  .next (by decide +kernel) rfl (by decide +kernel)
    (.last (by decide +kernel) rfl (by decide +kernel))

/-- At the end of a chain upper bits do no harm. -/
theorem readWalk_upperBits_card :
    cardFs.SameReads { cardFs with fat := setUpper cardFs.fat 5 } 3 4 := by
  refine (readWalk_upperBits_iff (Fs.fat32Mk_mounted card_mk) ?_ card_chainB (by decide)).mpr ?_
  · have hall : ∀ k < cardFs.fatLen, low28 (setUpper cardFs.fat 5 k) = low28 (cardFs.fat k) := by
      decide +kernel
    exact hall
  · right
    constructor <;> exact List.isChain_cons_cons.mpr ⟨rfl, List.isChain_singleton _⟩

/-- An upper bit at the first entry of the chain sends the walk out of the FAT. -/
theorem upperBits_matter :
    cardFs.Mounted ∧ cardFs.ChainFrom 4 [4,5] ∧
    (∀ k < cardFs.fatLen, low28 (setUpper cardFs.fat 4 k) = low28 (cardFs.fat k)) ∧
    cardFs.readWalk 3 4 = some ([(6,1),(7,1)], .returned) ∧
    Fs.readWalk { cardFs with fat := setUpper cardFs.fat 4 } 3 4 =
      some ([(6,1),(0x10000007,1)], .outOfBounds) :=
  ⟨Fs.fat32Mk_mounted card_mk, card_chainB, by decide +kernel, by decide +kernel,
    by decide +kernel⟩

end DistributedPis
