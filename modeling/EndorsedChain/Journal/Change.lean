import EndorsedChain.Bytes.Hex
import EndorsedChain.Bytes.Reader

/-!
# Journaled changes

A change holds the packed values before and after one mutation of an index, so that the mutation
can be undone later.
-/

namespace EndorsedChain

/-- The chain that a change applies to. -/
inductive ChainName where
  | veriBlock
  | bitcoin
deriving DecidableEq, Repr

namespace ChainName

def symbol : ChainName → String
  | .veriBlock => "VBK"
  | .bitcoin => "BTC"

def magic : ChainName → List UInt8
  | .veriBlock => [0x56, 0x42, 0x4b]
  | .bitcoin => [0x42, 0x54, 0x43]

def ofMagic? (magic : List UInt8) : Option ChainName :=
  if magic = veriBlock.magic then some .veriBlock
  else if magic = bitcoin.magic then some .bitcoin
  else none

@[simp] theorem ofMagic?_magic (c : ChainName) : ofMagic? c.magic = some c := by
  cases c <;> decide

@[simp] theorem length_magic (c : ChainName) : c.magic.length = 3 := by cases c <;> rfl

end ChainName

inductive Operation where
  | addBlock
  | setHead
  | setProof
deriving DecidableEq, Repr

namespace Operation

def tag : Operation → UInt8
  | .addBlock => 1
  | .setHead => 2
  | .setProof => 3

def ofTag? (tag : UInt8) : Option Operation :=
  if tag = 1 then some .addBlock
  else if tag = 2 then some .setHead
  else if tag = 3 then some .setProof
  else none

@[simp] theorem ofTag?_tag (o : Operation) : ofTag? o.tag = some o := by cases o <;> decide

end Operation

structure Change where
  chain : ChainName
  operation : Operation
  /-- Empty if there was no value before. -/
  oldValue : List UInt8
  newValue : List UInt8
deriving DecidableEq, Repr

namespace Change

def pack (c : Change) : List UInt8 :=
  c.chain.magic ++ BigEndian.u8 c.operation.tag
    ++ BigEndian.encode 4 c.oldValue.length ++ c.oldValue
    ++ BigEndian.encode 4 c.newValue.length ++ c.newValue

def readChain : Reader ChainName := do
  let magic ← Reader.take 3
  match ChainName.ofMagic? magic with
  | some chain => return chain
  | none => Reader.fail (.structureInvalid ("unknown chain " ++ Hex.encode magic))

def readOperation : Reader Operation := do
  let tag ← Reader.u8
  match Operation.ofTag? tag with
  | some operation => return operation
  | none => Reader.fail (.unknownTag tag.toNat)

/-- A value behind a length of four bytes. -/
def readValue : Reader (List UInt8) := do
  let length ← Reader.u32
  Reader.take length.toNat

def read : Reader Change := do
  let chain ← readChain
  let operation ← readOperation
  let oldValue ← readValue
  let newValue ← readValue
  return ⟨chain, operation, oldValue, newValue⟩

end Change

end EndorsedChain
