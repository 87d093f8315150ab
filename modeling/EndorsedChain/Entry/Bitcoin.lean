import EndorsedChain.Header.Bitcoin
import EndorsedChain.Store.Linked

/-! # Indexed Bitcoin headers -/

namespace EndorsedChain.Bitcoin

/-- A header with the work of its chain up to it, and its height, which Bitcoin headers do not
state. -/
structure Entry where
  header : Header
  work : Nat
  height : UInt32
deriving DecidableEq, Repr

namespace Entry

def hash (e : Entry) : Digest := e.header.hash

instance : Linked Entry Digest := ⟨hash, (·.header.previousBlock), Entry.height⟩

/-- A work of more than 255 bytes has no packed form. -/
def pack? (e : Entry) : Option (List UInt8) := do
  let work ← packSized? (BigEndian.minimal e.work)
  return e.header.pack ++ work ++ BigEndian.u32 e.height

def read : Reader Entry := do
  let header ← Header.read
  let work ← Reader.sized
  let height ← Reader.u32
  return ⟨header, BigEndian.decode work, height⟩

end Entry

end EndorsedChain.Bitcoin
