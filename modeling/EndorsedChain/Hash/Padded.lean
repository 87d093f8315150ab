import EndorsedChain.Hash.VBlake

/-!
# Truncated hashes in an array of the full size

A hash lies at the front of 24 bytes, with its length beside them. Equality and order look at all
of these bytes, so those behind the hash must not differ between hashes of one length. `VBlake`
leaves them out; for what can be built the two come to the same (`PaddedHash.built_iff`).
-/

namespace EndorsedChain

structure PaddedHash where
  size : UInt8
  array : Vector UInt8 24
deriving DecidableEq, Repr

namespace PaddedHash

/-- Writes a slice over the front of an array. -/
def overwrite (array : Vector UInt8 24) (slice : List UInt8) : Vector UInt8 24 :=
  array.mapIdx fun i byte => slice.getD i byte

def zeros : Vector UInt8 24 := .replicate 24 0

def length (p : PaddedHash) : Nat := p.size.toNat

/-- The bytes of the hash, without those behind it. -/
def significant (p : PaddedHash) : List UInt8 := p.array.toList.take p.length

def digest (message : List UInt8) : PaddedHash where
  size := 24
  array := overwrite zeros (Blake2b.digest 24 message)

def ofBytes (bytes : List UInt8) : Except HashError PaddedHash :=
  if bytes.isEmpty ∨ 24 < bytes.length then .error (.invalidSize bytes.length 24)
  else .ok { size := UInt8.ofNat bytes.length, array := overwrite zeros bytes }

def ofHex (text : String) : Except HashError PaddedHash := HashError.ofHex text >>= ofBytes

/-- A hash of `size` zero bytes, if there is one of that size. -/
def zeros? (size : Nat) : Option PaddedHash :=
  if 0 < size ∧ size ≤ 24 then some { size := UInt8.ofNat size, array := zeros } else none

/-- Moves the last `size` bytes to the front of another array. -/
def trim (p : PaddedHash) (size : Nat) : PaddedHash :=
  if p.length ≤ size ∨ size = 0 then p
  else
    let bytes := p.significant
    { size := UInt8.ofNat size
      array := overwrite zeros (bytes.drop (bytes.length - size)) }

def storeKey (p : PaddedHash) : PaddedHash := p.trim 9

def endsWith (p suffix : PaddedHash) : Bool := suffix.significant.isSuffixOf p.significant

/-- Whether two hashes agree on their common length. -/
def agrees (p q : PaddedHash) : Bool :=
  let common := min p.length q.length
  decide (p.trim common = q.trim common)

/-- Lengths are compared first, then all bytes. -/
protected def compare (p q : PaddedHash) : Ordering :=
  (compare p.size q.size).then (compare p.array.toList q.array.toList)

instance : Ord PaddedHash := ⟨PaddedHash.compare⟩

def read : Reader PaddedHash := do
  let bytes ← Reader.sized
  Reader.ofExcept ((ofBytes bytes).mapError (.structureInvalid ·.message))

/-- What can be built: other arrays and lengths do not occur. -/
inductive Built : PaddedHash → Prop
  | digest (message : List UInt8) : Built (digest message)
  | ofBytes {bytes : List UInt8} {p : PaddedHash} (h : ofBytes bytes = .ok p) : Built p
  | zeros? {size : Nat} {p : PaddedHash} (h : zeros? size = some p) : Built p
  | trim {p : PaddedHash} (h : Built p) (size : Nat) : Built (p.trim size)
  | read {bytes rest : List UInt8} {p : PaddedHash} (h : read bytes = (.ok p, rest)) : Built p
  | ofHex {text : String} {p : PaddedHash} (h : ofHex text = .ok p) : Built p

end PaddedHash

end EndorsedChain
