import EndorsedChain.Hash.Digest

/-! # Bitcoin headers -/

namespace EndorsedChain.Bitcoin

def headerSize : Nat := 80

structure Draft where
  version : UInt32
  previousBlock : Digest
  merkleRoot : Digest
  timestamp : UInt32
  bits : UInt32
  nonce : UInt32
deriving DecidableEq, Repr

def Draft.pack (d : Draft) : List UInt8 :=
  BigEndian.u32 d.version ++ d.previousBlock.pack ++ d.merkleRoot.pack
    ++ BigEndian.u32 d.timestamp ++ BigEndian.u32 d.bits ++ BigEndian.u32 d.nonce

/-- A header with its hash. -/
structure Header extends Draft where
  hash : Digest
  hash_eq : hash = Digest.doubleSha256 toDraft.pack
deriving DecidableEq, Repr

def Draft.seal (d : Draft) : Header := { d with hash := .doubleSha256 d.pack, hash_eq := rfl }

namespace Header

def pack (h : Header) : List UInt8 := h.toDraft.pack

def read : Reader Header := do
  let version ← Reader.u32
  let previousBlock ← Digest.read
  let merkleRoot ← Digest.read
  let timestamp ← Reader.u32
  let bits ← Reader.u32
  let nonce ← Reader.u32
  let draft : Draft := { version, previousBlock, merkleRoot, timestamp, bits, nonce }
  return draft.seal

@[simp] theorem length_pack (h : Header) : h.pack.length = headerSize := by
  simp [pack, Draft.pack, headerSize]

end Header

end EndorsedChain.Bitcoin
