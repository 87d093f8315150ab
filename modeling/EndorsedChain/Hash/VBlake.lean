import EndorsedChain.Bytes.Reader
import EndorsedChain.Hash.Blake2b
import EndorsedChain.Hash.Error

/-!
# Truncated header hashes

A VeriBlock header is identified by 24 bytes. Other headers refer to it by the last 12 or 9 of
them, so a hash of any length up to 24 stands for the headers whose hash ends with it. Two hashes
agree if the shorter is a suffix of the longer.
-/

namespace EndorsedChain

structure VBlake where
  bytes : List UInt8
  length_pos : 0 < bytes.length
  length_le : bytes.length ≤ 24
deriving DecidableEq, Repr

namespace VBlake

def length (h : VBlake) : Nat := h.bytes.length

/-- The hash of a packed header. -/
def digest (message : List UInt8) : VBlake where
  bytes := Blake2b.digest 24 message
  length_pos := by rw [Blake2b.length_digest (by decide)]; decide
  length_le := Nat.le_of_eq (Blake2b.length_digest (by decide) message)

def ofBytes (bytes : List UInt8) : Except HashError VBlake :=
  if h : 0 < bytes.length ∧ bytes.length ≤ 24 then .ok ⟨bytes, h.1, h.2⟩
  else .error (.invalidSize bytes.length 24)

def ofHex (text : String) : Except HashError VBlake := HashError.ofHex text >>= ofBytes

/-- A hash of `size` zero bytes, if there is one of that size. -/
def zeros? (size : Nat) : Option VBlake :=
  if h : 0 < size ∧ size ≤ 24 then
    some ⟨List.replicate size 0, by simp [h.1], by simp [h.2]⟩
  else none

/-- The identifier of no header, the parent of an origin. -/
def zero : VBlake := ⟨List.replicate 24 0, by simp, by simp⟩

def isZero (h : VBlake) : Bool := h.bytes.all (· == 0)

/-- Keeps the last `size` bytes. A hash is never trimmed to nothing: size 0 leaves it whole. -/
def trim (h : VBlake) (size : Nat) : VBlake :=
  if hsize : size < h.bytes.length ∧ 0 < size then
    { bytes := h.bytes.drop (h.bytes.length - size)
      length_pos := by simp; omega
      length_le := by have := h.length_le; simp; omega }
  else h

/-- The form in which a header refers to the header before it. -/
def toPrevious (h : VBlake) : VBlake := h.trim 12

/-- The form in which a header refers to a keystone. -/
def toKeystone (h : VBlake) : VBlake := h.trim 9

/-- Stores index a header by the shortest form it is referred to by. -/
def storeKey (h : VBlake) : VBlake := h.toKeystone

def endsWith (h suffix : VBlake) : Bool := suffix.bytes.isSuffixOf h.bytes

/-- Whether two hashes agree on their common length. -/
def agrees (a b : VBlake) : Bool :=
  let common := min a.length b.length
  decide (a.trim common = b.trim common)

/-- The bytes followed by zeros up to the full size. -/
def padded (h : VBlake) : List UInt8 := h.bytes ++ List.replicate (24 - h.bytes.length) 0

/-- Shorter hashes come first. -/
protected def compare (a b : VBlake) : Ordering :=
  (compare a.length b.length).then (compare a.padded b.padded)

instance : Ord VBlake := ⟨VBlake.compare⟩

def toHex (h : VBlake) : String := Hex.encode h.bytes

instance : ToString VBlake := ⟨toHex⟩

/-- The hash with the name of its type. -/
def describe (h : VBlake) : String := "VBlakeHash(" ++ h.toHex ++ ")"

def pack (h : VBlake) : List UInt8 := UInt8.ofNat h.bytes.length :: h.bytes

/-- A hash of the given bytes inside a packed value. -/
def ofPacked (bytes : List UInt8) : Reader VBlake :=
  .ofExcept ((ofBytes bytes).mapError (.structureInvalid ·.message))

def read : Reader VBlake := do ofPacked (← Reader.sized)

/-- A hash of known length is packed without its length. -/
def readFixed (size : Nat) : Reader VBlake := do ofPacked (← Reader.take size)

theorem trim_of_le {h : VBlake} {size : Nat} (hsize : h.length ≤ size) : h.trim size = h := by
  unfold trim length at *
  rw [dif_neg (by omega)]

theorem length_trim {h : VBlake} {size : Nat} (hpos : 0 < size) (hsize : size ≤ h.length) :
    (h.trim size).length = size := by
  unfold trim length at *
  split
  · simp; omega
  · omega

@[simp] theorem length_digest (message : List UInt8) : (digest message).length = 24 :=
  Blake2b.length_digest (by decide) message

@[simp] theorem length_zero : zero.length = 24 := rfl

end VBlake

end EndorsedChain
