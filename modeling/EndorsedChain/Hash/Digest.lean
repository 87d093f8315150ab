import EndorsedChain.Bytes.Reader
import EndorsedChain.Hash.Error
import EndorsedChain.Hash.Sha256

/-! # Digests of 32 bytes, identifiers of Bitcoin headers -/

namespace EndorsedChain

structure Digest where
  bytes : List UInt8
  length_eq : bytes.length = 32
deriving DecidableEq, Repr

namespace Digest

/-- Stands for "no Bitcoin header". -/
def zero : Digest := ⟨List.replicate 32 0, by simp⟩

def isZero (d : Digest) : Bool := decide (d = zero)

def sha256 (message : List UInt8) : Digest := ⟨Sha256.digest message, by simp⟩

def doubleSha256 (message : List UInt8) : Digest := sha256 (sha256 message).bytes

def ofBytes (bytes : List UInt8) : Except HashError Digest :=
  if h : bytes.length = 32 then .ok ⟨bytes, h⟩ else .error (.invalidSize bytes.length 32)

def ofHex (text : String) : Except HashError Digest := HashError.ofHex text >>= ofBytes

instance : Ord Digest := ⟨fun a b => compare a.bytes b.bytes⟩

def toHex (d : Digest) : String := Hex.encode d.bytes

instance : ToString Digest := ⟨toHex⟩

/-- The digest with the name of its type. -/
def describe (d : Digest) : String := "Sha256Hash(" ++ d.toHex ++ ")"

def pack (d : Digest) : List UInt8 := d.bytes

def read : Reader Digest := do
  let bytes ← Reader.take 32
  Reader.ofExcept ((ofBytes bytes).mapError (.structureInvalid ·.message))

@[simp] theorem length_pack (d : Digest) : d.pack.length = 32 := d.length_eq

@[simp] theorem isZero_zero : zero.isZero = true := by simp [isZero]

end Digest

/-- The part of a merkle root that a VeriBlock header keeps: its first 16 bytes. -/
structure MerkleRoot where
  bytes : List UInt8
  length_eq : bytes.length = 16
deriving DecidableEq, Repr

namespace MerkleRoot

def zero : MerkleRoot := ⟨List.replicate 16 0, by simp⟩

def ofBytes? (bytes : List UInt8) : Option MerkleRoot :=
  if h : bytes.length = 16 then some ⟨bytes, h⟩ else none

def toHex (m : MerkleRoot) : String := Hex.encode m.bytes

def read : Reader MerkleRoot := fun bytes =>
  if h : bytes.length < 16 then (.error (.notEnoughBytes bytes.length 16), bytes)
  else (.ok ⟨bytes.take 16, by simp; omega⟩, bytes.drop 16)

end MerkleRoot

def Digest.toMerkleRoot (d : Digest) : MerkleRoot :=
  ⟨d.bytes.take 16, by have := d.length_eq; simp; omega⟩

/-- The identifier of a block of an endorsed chain: at most 64 bytes, filled up with zeros on the
left. -/
structure BlockIdentifier where
  bytes : List UInt8
  length_eq : bytes.length = 64
deriving DecidableEq, Repr

namespace BlockIdentifier

def wrap (value : List UInt8) : Except HashError BlockIdentifier :=
  if h : value.length ≤ 64 then
    .ok ⟨List.replicate (64 - value.length) 0 ++ value, by simp; omega⟩
  else .error (.invalidSize value.length 64)

instance : Ord BlockIdentifier := ⟨fun a b => compare a.bytes b.bytes⟩

def toHex (b : BlockIdentifier) : String := Hex.encode b.bytes

/-- The identifier with the name of its type. -/
def describe (b : BlockIdentifier) : String := "BlockIdentifier(" ++ b.toHex ++ ")"

end BlockIdentifier

end EndorsedChain
