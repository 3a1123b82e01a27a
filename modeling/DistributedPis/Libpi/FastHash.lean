import Mathlib

/-! The incremental 32 bit hash of `libpi/libc/fast-hash32.h`, whose value `sendCmd`
stores as the checksum of a message. -/
namespace DistributedPis

def get16bits (d₀ d₁ : UInt8) : UInt32 := (d₁.toUInt32 <<< 8) + d₀.toUInt32

/-- A byte read through `signed char`. -/
def signedChar (b : UInt8) : UInt32 :=
  if b < 128 then b.toUInt32 else b.toUInt32 ||| 0xffffff00

/-- One round of the main loop, on two 16 bit halves. -/
def hashRound (d₀ d₁ d₂ d₃ : UInt8) (hash : UInt32) : UInt32 :=
  let hash := hash + get16bits d₀ d₁
  let tmp := (get16bits d₂ d₃ <<< 11) ^^^ hash
  let hash := (hash <<< 16) ^^^ tmp
  hash + (hash >>> 11)

/-- The main loop over whole words, then the end case for the `len & 3` bytes left. -/
def hashLoop : List UInt8 → UInt32 → UInt32
  | d₀::d₁::d₂::d₃::rest, hash => hashLoop rest (hashRound d₀ d₁ d₂ d₃ hash)
  | [d₀,d₁,d₂], hash =>
    let hash := hash + get16bits d₀ d₁
    let hash := hash ^^^ (hash <<< 16)
    let hash := hash ^^^ (signedChar d₂ <<< 18)
    hash + (hash >>> 11)
  | [d₀,d₁], hash =>
    let hash := hash + get16bits d₀ d₁
    let hash := hash ^^^ (hash <<< 11)
    hash + (hash >>> 17)
  | [d₀], hash =>
    let hash := hash + signedChar d₀
    let hash := hash ^^^ (hash <<< 10)
    hash + (hash >>> 1)
  | [], hash => hash

/-- Force the avalanching of the final bits. -/
def hashFinal (hash : UInt32) : UInt32 :=
  let hash := hash ^^^ (hash <<< 3)
  let hash := hash + (hash >>> 5)
  let hash := hash ^^^ (hash <<< 4)
  let hash := hash + (hash >>> 17)
  let hash := hash ^^^ (hash <<< 25)
  hash + (hash >>> 6)

/-- Hash the bytes at `data`; a null pointer or no bytes give zero. -/
def fastHashInc32 : Option (List UInt8) → UInt32 → UInt32
  | none, _ => 0
  | some [], _ => 0
  | some data, hash => hashFinal (hashLoop data hash)

def fastHash32 (data : Option (List UInt8)) : UInt32 :=
  fastHashInc32 data (UInt32.ofNat ((data.map List.length).getD 0))

end DistributedPis
