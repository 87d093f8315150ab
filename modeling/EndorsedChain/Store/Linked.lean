import EndorsedChain.Hash.Digest
import EndorsedChain.Hash.VBlake

/-!
# Linked blocks

A block of an indexed chain has an identifier, names its parent by an identifier, and has a height.
-/

namespace EndorsedChain

/-- Identifiers of blocks. A short identifier may stand for several blocks. -/
class BlockId (ι : Type) where
  /-- The parent of an origin. -/
  zero : ι
  isZero : ι → Bool
  /-- Blocks are grouped by this part of their identifier. -/
  storeKey : ι → ι
  /-- Whether an identifier stands for the block with the given one. -/
  designates : ι → ι → Bool
  toHex : ι → String

instance : BlockId VBlake where
  zero := VBlake.zero
  isZero := VBlake.isZero
  storeKey := VBlake.storeKey
  designates := VBlake.agrees
  toHex := VBlake.toHex

instance : BlockId Digest where
  zero := Digest.zero
  isZero := Digest.isZero
  storeKey := id
  designates a b := decide (a = b)
  toHex := Digest.toHex

class Linked (β : Type) (ι : outParam Type) where
  id : β → ι
  parent : β → ι
  height : β → UInt32

/-- A block that consists of its links alone. -/
structure Link (ι : Type) where
  id : ι
  parent : ι
  height : UInt32
deriving DecidableEq, Repr

instance {ι : Type} : Linked (Link ι) ι := ⟨Link.id, Link.parent, Link.height⟩

end EndorsedChain
