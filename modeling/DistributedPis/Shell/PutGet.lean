import DistributedPis.Library.Bytes
import DistributedPis.Library.Link
import DistributedPis.Library.Words

/-! Words and bytes on the serial link, on the side of the laptop (`put-get.c`) and on the side of
the Pi (`get-code.h`). Both send a word as four bytes, the lowest one first. -/
namespace DistributedPis
open Library

/-- A program on one end of the serial link. -/
abbrev Serial (α : Type) := Proc UInt8 α

/-- The bytes of a word as they are sent. -/
def wordBytes (w : Word) : List UInt8 :=
  [byteOf w.toNat 0, byteOf w.toNat 1, byteOf w.toNat 2, byteOf w.toNat 3]

def getUint8 : Serial UInt8 := Proc.recv

def getUint32 : Serial Word := do
  let b₀ ← getUint8
  let b₁ ← getUint8
  let b₂ ← getUint8
  let b₃ ← getUint8
  pure (BitVec.ofNat 32 (le32 b₀ b₁ b₂ b₃))

def putUint32 (w : Word) : Serial Unit := Proc.sendAll (wordBytes w)

/-- `uart_get8`. -/
def uartGet8 : Serial UInt8 := getUint8

def bootGet32 : Serial Word := getUint32

def bootPut32 (w : Word) : Serial Unit := putUint32 w

theorem getUint8_runs (b : UInt8) : getUint8.Runs [b] [] (.done b) := Proc.Runs.recv b

theorem getUint32_runs (w : Word) : getUint32.Runs (wordBytes w) [] (.done w) := by
  have hw : BitVec.ofNat 32 (le32 (byteOf w.toNat 0) (byteOf w.toNat 1) (byteOf w.toNat 2)
      (byteOf w.toNat 3)) = w := by
    apply BitVec.eq_of_toNat_eq
    rw [le32_byteOf, BitVec.toNat_ofNat, Nat.mod_mod, Nat.mod_eq_of_lt w.isLt]
  nth_rewrite 2 [← hw]
  exact .get (.get (.get (.get (.refl _))))

theorem putUint32_runs (w : Word) : (putUint32 w).Runs [] (wordBytes w) (.done ()) :=
  Proc.Runs.sendAll _

theorem uartGet8_runs (b : UInt8) : uartGet8.Runs [b] [] (.done b) := getUint8_runs b

theorem bootGet32_runs (w : Word) : bootGet32.Runs (wordBytes w) [] (.done w) := getUint32_runs w

theorem bootPut32_runs (w : Word) : (bootPut32 w).Runs [] (wordBytes w) (.done ()) :=
  putUint32_runs w

@[simp] theorem wordBytes_length (w : Word) : (wordBytes w).length = 4 := rfl

/-- Any four bytes are a word. -/
theorem exists_wordBytes {bs : List UInt8} (h : bs.length = 4) : ∃ w, wordBytes w = bs := by
  obtain ⟨b₀,b₁,b₂,b₃,rfl⟩ := List.length_eq_four.mp h
  obtain ⟨h₀,h₁,h₂,h₃⟩ := byteOf_le32 b₀ b₁ b₂ b₃
  refine ⟨BitVec.ofNat 32 (le32 b₀ b₁ b₂ b₃), ?_⟩
  rw [wordBytes, BitVec.toNat_ofNat, Nat.mod_eq_of_lt (le32_lt ..), h₀, h₁, h₂, h₃]

theorem wordBytes_inj {v w : Word} (h : wordBytes v = wordBytes w) : v = w := by
  simp only [wordBytes, List.cons.injEq, and_true] at h
  obtain ⟨h₀,h₁,h₂,h₃⟩ := h
  have hle := le32_byteOf v.toNat
  rw [h₀, h₁, h₂, h₃, le32_byteOf, Nat.mod_eq_of_lt v.isLt, Nat.mod_eq_of_lt w.isLt] at hle
  exact (BitVec.eq_of_toNat_eq hle).symm

theorem getUint32_inv {w : Word} {i o : List UInt8} (h : getUint32.Runs i o (.done w)) :
    i = wordBytes w ∧ o = [] := by
  obtain ⟨b₀,_,rfl,h₀⟩ := Proc.Runs.get_inv h
  obtain ⟨b₁,_,rfl,h₁⟩ := Proc.Runs.get_inv h₀
  obtain ⟨b₂,_,rfl,h₂⟩ := Proc.Runs.get_inv h₁
  obtain ⟨b₃,_,rfl,h₃⟩ := Proc.Runs.get_inv h₂
  obtain ⟨rfl,rfl,rfl⟩ := Proc.Runs.done_inv h₃
  obtain ⟨e₀,e₁,e₂,e₃⟩ := byteOf_le32 b₀ b₁ b₂ b₃
  rw [wordBytes, BitVec.toNat_ofNat, Nat.mod_eq_of_lt (le32_lt ..), e₀, e₁, e₂, e₃]
  exact ⟨rfl,rfl⟩

theorem putUint32_inv {w : Word} {u : Unit} {i o : List UInt8}
    (h : (putUint32 w).Runs i o (.done u)) : i = [] ∧ o = wordBytes w :=
  Proc.Runs.sendAll_inv h

theorem getUint32_starved {α : Type} (f : Word → Serial α) : (getUint32 >>= f).Starved := .get _

end DistributedPis
