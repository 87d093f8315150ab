import EndorsedChain.Difficulty.Compact
import EndorsedChain.Hash.Digest
import EndorsedChain.Hash.VBlake

/-!
# VeriBlock headers

A header names the header before it and two keystones by truncated hashes. Every twentieth header
is a keystone.
-/

namespace EndorsedChain.VeriBlock

def keystoneInterval : Nat := 20

def headerSize : Nat := 64

/-- What a header is made of, its references not yet cut to size. -/
structure Draft where
  height : UInt32
  version : UInt16
  previousBlock : VBlake
  previousKeystone : VBlake
  secondPreviousKeystone : VBlake
  merkleRoot : MerkleRoot
  timestamp : UInt32
  difficulty : UInt32
  nonce : UInt32
deriving DecidableEq, Repr

def Draft.pack (d : Draft) : List UInt8 :=
  BigEndian.u32 d.height ++ BigEndian.u16 d.version ++ d.previousBlock.bytes
    ++ d.previousKeystone.bytes ++ d.secondPreviousKeystone.bytes ++ d.merkleRoot.bytes
    ++ BigEndian.u32 d.timestamp ++ BigEndian.u32 d.difficulty ++ BigEndian.u32 d.nonce

/-- A header with its hash. -/
structure Header extends Draft where
  length_previousBlock : previousBlock.length = 12
  length_previousKeystone : previousKeystone.length = 9
  length_secondPreviousKeystone : secondPreviousKeystone.length = 9
  hash : VBlake
  hash_eq : hash = VBlake.digest toDraft.pack
deriving DecidableEq, Repr

/-- A reference that is shorter than the form it is kept in. -/
inductive ReferenceError where
  | previousBlockTooShort (length : Nat)
  | previousKeystoneTooShort (length : Nat)
  | secondPreviousKeystoneTooShort (length : Nat)
deriving DecidableEq, Repr

def ReferenceError.message : ReferenceError → String
  | .previousBlockTooShort length =>
    s!"previous block hash must be at least 12 bytes, got {length}"
  | .previousKeystoneTooShort length =>
    s!"previous keystone hash must be at least 9 bytes, got {length}"
  | .secondPreviousKeystoneTooShort length =>
    s!"second previous keystone hash must be at least 9 bytes, got {length}"

/-- Cuts the references to size and hashes the result. -/
def Draft.seal (d : Draft) : Except ReferenceError Header :=
  if h₁ : d.previousBlock.length < 12 then
    .error (.previousBlockTooShort d.previousBlock.length)
  else if h₂ : d.previousKeystone.length < 9 then
    .error (.previousKeystoneTooShort d.previousKeystone.length)
  else if h₃ : d.secondPreviousKeystone.length < 9 then
    .error (.secondPreviousKeystoneTooShort d.secondPreviousKeystone.length)
  else
    let d' : Draft :=
      { d with
        previousBlock := d.previousBlock.toPrevious
        previousKeystone := d.previousKeystone.toKeystone
        secondPreviousKeystone := d.secondPreviousKeystone.toKeystone }
    .ok
      { d' with
        length_previousBlock := VBlake.length_trim (by decide) (by omega)
        length_previousKeystone := VBlake.length_trim (by decide) (by omega)
        length_secondPreviousKeystone := VBlake.length_trim (by decide) (by omega)
        hash := VBlake.digest d'.pack
        hash_eq := rfl }

namespace Header

/-- The position in the keystone period. -/
def roundIndex (h : Header) : Nat := h.height.toNat % keystoneInterval

def isKeystone (h : Header) : Bool := h.roundIndex == 0

def keystoneIndex (h : Header) : Nat := h.height.toNat / keystoneInterval

/-- The keystone that fork choice goes back to. The first header of a period follows its keystone
directly. -/
def effectivePreviousKeystone (h : Header) : VBlake :=
  if h.roundIndex = 1 then h.previousBlock.toKeystone else h.previousKeystone

/-- The keystones that a proof of this header counts for as well. -/
def provenKeystones (h : Header) : List VBlake :=
  if h.roundIndex = 1 then [h.effectivePreviousKeystone, h.previousKeystone]
  else [h.effectivePreviousKeystone]

/-- The difficulty as a number, which is the work that the header adds to its chain. -/
def work (h : Header) : Except Compact.Error Nat := Compact.decode h.difficulty

/-- The check that needs no other header. -/
def validate (h : Header) : Except Compact.Error Unit := h.work.map fun _ => ()

def pack (h : Header) : List UInt8 := h.toDraft.pack

def read : Reader Header := do
  let height ← Reader.u32
  let version ← Reader.u16
  let previousBlock ← VBlake.readFixed 12
  let previousKeystone ← VBlake.readFixed 9
  let secondPreviousKeystone ← VBlake.readFixed 9
  let merkleRoot ← MerkleRoot.read
  let timestamp ← Reader.u32
  let difficulty ← Reader.u32
  let nonce ← Reader.u32
  let draft : Draft :=
    { height, version, previousBlock, previousKeystone, secondPreviousKeystone, merkleRoot,
      timestamp, difficulty, nonce }
  Reader.ofExcept (draft.seal.mapError (.structureInvalid ·.message))

@[simp] theorem length_pack (h : Header) : h.pack.length = headerSize := by
  have h₁ := h.length_previousBlock
  have h₂ := h.length_previousKeystone
  have h₃ := h.length_secondPreviousKeystone
  have h₄ := h.merkleRoot.length_eq
  unfold VBlake.length at h₁ h₂ h₃
  simp [pack, Draft.pack, headerSize, h₁, h₂, h₃, h₄]

end Header

end EndorsedChain.VeriBlock
