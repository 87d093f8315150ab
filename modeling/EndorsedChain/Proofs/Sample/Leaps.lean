import EndorsedChain.Proofs.Sample.Openings

/-!
# Headers that leave out heights

Nothing compares the height that a header states with the height of the header before it.  So a
keystone may come right after the first header, another keystone may compete with it, the next
keystone may follow at once, and one after that may be lower than those before it.  Their hashes are
written out.  Bitcoin headers can be stored at any height as well.
-/

namespace EndorsedChain.Sample

open VeriBlock

def leapDraft (difficulty salt : UInt32) : Draft :=
  { secondDraft difficulty salt with
    height := 20
    previousKeystone := genesis.hash.toKeystone }

/-- The first header is at height 0, this one follows it at height 20. -/
def leap : Header where
  toDraft := leapDraft defaultDifficulty 0
  length_previousBlock := rfl
  length_previousKeystone := rfl
  length_secondPreviousKeystone := rfl
  hash :=
    { bytes := [91, 51, 123, 84, 144, 141, 15, 143, 57, 65, 137, 1, 194, 57, 141, 56, 27, 203, 120,
        233, 238, 167, 178, 198]
      length_pos := by decide
      length_le := by decide }
  hash_eq := by decide +kernel

/-- As high as the other keystone, but with more work. -/
def rivalLeap : Header where
  toDraft := leapDraft 0x0505f5e1 1
  length_previousBlock := rfl
  length_previousKeystone := rfl
  length_secondPreviousKeystone := rfl
  hash :=
    { bytes := [187, 248, 168, 233, 84, 58, 33, 189, 168, 147, 183, 53, 187, 36, 177, 138, 6, 61,
        27, 251, 144, 6, 155, 24]
      length_pos := by decide
      length_le := by decide }
  hash_eq := by decide +kernel

/-- A keystone right after a keystone. -/
def secondLeap : Header where
  toDraft :=
    { thirdDraft leap.hash.toKeystone with
      height := 40
      previousBlock := leap.hash.toPrevious
      secondPreviousKeystone := genesis.hash.toKeystone }
  length_previousBlock := rfl
  length_previousKeystone := rfl
  length_secondPreviousKeystone := rfl
  hash :=
    { bytes := [160, 130, 156, 28, 114, 60, 100, 207, 147, 143, 157, 205, 144, 68, 103, 246, 64,
        63, 151, 88, 206, 165, 197, 104]
      length_pos := by decide
      length_le := by decide }
  hash_eq := by decide +kernel

/-- A keystone that goes back to a higher one. -/
def backwardLeap : Header where
  toDraft :=
    { secondLeap.toDraft with
      height := 20
      previousBlock := secondLeap.hash.toPrevious
      previousKeystone := secondLeap.hash.toKeystone
      secondPreviousKeystone := leap.hash.toKeystone }
  length_previousBlock := rfl
  length_previousKeystone := rfl
  length_secondPreviousKeystone := rfl
  hash :=
    { bytes := [223, 148, 120, 155, 200, 8, 161, 237, 7, 68, 118, 255, 132, 175, 181, 212, 34, 224,
        24, 91, 249, 129, 240, 125]
      length_pos := by decide
      length_le := by decide }
  hash_eq := by decide +kernel

/-- Right after the second keystone, with more work than the keystone that goes back to it. -/
def heavyStep : Header where
  toDraft :=
    { secondLeap.toDraft with
      height := 41
      previousBlock := secondLeap.hash.toPrevious
      previousKeystone := leap.hash.toKeystone
      difficulty := 0x0505f5e1 }
  length_previousBlock := rfl
  length_previousKeystone := rfl
  length_secondPreviousKeystone := rfl
  hash :=
    { bytes := [249, 83, 108, 213, 117, 44, 215, 132, 127, 70, 191, 83, 93, 167, 73, 48, 125, 230,
        246, 39, 229, 241, 28, 153]
      length_pos := by decide
      length_le := by decide }
  hash_eq := by decide +kernel

/-! ## Entries -/

def leapEntry (proof : Digest) : Entry := ⟨leap, 200000000, proof⟩

def rivalLeapEntry (proof : Digest) : Entry := ⟨rivalLeap, 25700000000, proof⟩

def backwardEntry : Entry := ⟨backwardLeap, 400000000, .zero⟩

def heavyEntry : Entry := ⟨heavyStep, 25900000000, .zero⟩

/-- A best chain of two Bitcoin headers, the second one stored at the given height. -/
def bitcoinUpTo (height : UInt32) : Store Bitcoin.Entry Digest where
  buckets := ((Store.empty.put bitcoinFirst).put { bitcoinTip with height }).buckets
  headId := some bitcoinTip.hash

end EndorsedChain.Sample
