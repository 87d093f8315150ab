import EndorsedChain.Header.VeriBlock
import EndorsedChain.Store.Linked

/-! # Indexed VeriBlock headers -/

namespace EndorsedChain.VeriBlock

/-- A header with the work of its chain up to it, and the Bitcoin header that holds the best known
endorsement of it. -/
structure Entry where
  header : Header
  work : Nat
  /-- `Digest.zero` while the header is not endorsed. -/
  proof : Digest
deriving DecidableEq, Repr

namespace Entry

def hash (e : Entry) : VBlake := e.header.hash

def height (e : Entry) : UInt32 := e.header.height

def keystoneIndex (e : Entry) : Nat := e.header.keystoneIndex

def hasProof (e : Entry) : Bool := !e.proof.isZero

instance : Linked Entry VBlake := ⟨hash, (·.header.previousBlock), height⟩

/-- The length of the work is packed in one byte, so that a work of more than 255 bytes has no
packed form. -/
def pack? (e : Entry) : Option (List UInt8) := do
  let work ← packSized? (BigEndian.minimal e.work)
  return e.header.pack ++ work ++ e.proof.pack

def read : Reader Entry := do
  let header ← Header.read
  let work ← Reader.sized
  let proof ← Digest.read
  return ⟨header, BigEndian.decode work, proof⟩

end Entry

end EndorsedChain.VeriBlock
