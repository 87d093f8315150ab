import EndorsedChain.Entry.VeriBlock
import EndorsedChain.Journal.Change

/-! # Edits of an index, the contents of its journal -/

namespace EndorsedChain

open VeriBlock

/-- One mutation of the VeriBlock store. -/
inductive Edit where
  | addBlock (added : Entry)
  /-- The first head has no prior one. -/
  | setHead (prior : Option Entry) (head : Entry)
  | setProof (prior proven : Entry)
deriving DecidableEq, Repr

namespace Edit

/-- A header of zeros. -/
def blankDraft : Draft where
  height := 0
  version := 0
  previousBlock := VBlake.zero.toPrevious
  previousKeystone := VBlake.zero.toKeystone
  secondPreviousKeystone := VBlake.zero.toKeystone
  merkleRoot := .zero
  timestamp := 0
  difficulty := 0
  nonce := 0

/-- Journaled in place of the head before the first one. It is never stored. -/
def placeholder : Entry where
  header :=
    { blankDraft with
      length_previousBlock := rfl
      length_previousKeystone := rfl
      length_secondPreviousKeystone := rfl
      hash := VBlake.digest blankDraft.pack
      hash_eq := rfl }
  work := 1
  proof := .zero

/-- The packed form, unless a work has too many bytes. -/
def toChange? : Edit → Option Change
  | .addBlock added => do
    return ⟨.veriBlock, .addBlock, [], ← added.pack?⟩
  | .setHead prior head => do
    return ⟨.veriBlock, .setHead, ← (prior.getD placeholder).pack?, ← head.pack?⟩
  | .setProof prior proven => do
    return ⟨.veriBlock, .setProof, ← prior.pack?, ← proven.pack?⟩

end Edit

end EndorsedChain
