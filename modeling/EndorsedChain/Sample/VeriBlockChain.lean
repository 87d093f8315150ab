import EndorsedChain.Difficulty.Retarget
import EndorsedChain.Entry.VeriBlock

/-!
# Regular chains of VeriBlock headers

A sample chain starts at height 0 and grows by headers that refer to each other as the network
wants it. A copy with another salt grows into a fork.
-/

namespace EndorsedChain.Sample

open VeriBlock

def genesisTimestamp : UInt32 := 1553699059

/-- 100 000 000, the minimum difficulty of the test network. -/
def defaultDifficulty : UInt32 := 0x0405f5e1

/-- The height of the previous keystone that a header at `height` refers to. -/
def previousKeystoneHeight? (height : Nat) : Option Nat :=
  if height < 2 then none else some ((height - 2) / keystoneInterval * keystoneInterval)

structure VeriBlockChain where
  /-- By height. -/
  headers : Array Header := #[]
  work : Nat := 0
  spacing : UInt32 := UInt32.ofNat Retarget.targetBlockTime
  difficulty : UInt32 := defaultDifficulty
  salt : UInt32 := 0
deriving DecidableEq, Repr

namespace VeriBlockChain

def tip? (c : VeriBlockChain) : Option Header := c.headers.back?

/-- A branch from the tip, told apart by the nonce of its headers. -/
def fork (c : VeriBlockChain) (salt : UInt32) : VeriBlockChain := { c with salt }

/-- Nine zero bytes where there is no keystone. -/
def keystoneHash (c : VeriBlockChain) (height : Option Nat) : VBlake :=
  match height.bind (c.headers[·]?) with
  | some keystone => keystone.hash
  | none => VBlake.zero.toKeystone

def nextDraft (c : VeriBlockChain) (timestamp : UInt32) : Draft where
  height := UInt32.ofNat c.headers.size
  version := 2
  previousBlock := (c.tip?.map (·.hash)).getD VBlake.zero.toPrevious
  previousKeystone := c.keystoneHash (previousKeystoneHeight? c.headers.size)
  secondPreviousKeystone := c.keystoneHash do
    let height ← previousKeystoneHeight? c.headers.size
    guard (keystoneInterval ≤ height)
    return height - keystoneInterval
  merkleRoot :=
    (Digest.sha256 (BigEndian.u32 (UInt32.ofNat c.headers.size))).toMerkleRoot
  timestamp := timestamp
  difficulty := c.difficulty
  nonce := c.salt

/-- The next header with a chosen timestamp. -/
def peekAt (c : VeriBlockChain) (timestamp : UInt32) : Except ReferenceError Header :=
  (c.nextDraft timestamp).seal

def nextTimestamp (c : VeriBlockChain) : UInt32 :=
  genesisTimestamp + UInt32.ofNat c.headers.size * c.spacing

def peek (c : VeriBlockChain) : Except ReferenceError Header := c.peekAt c.nextTimestamp

/-- Appends the next header. A difficulty that encodes no number has no work to add. -/
def growAt? (c : VeriBlockChain) (timestamp : UInt32) : Option VeriBlockChain := do
  let header ← (c.peekAt timestamp).toOption
  let work ← header.work.toOption
  return { c with headers := c.headers.push header, work := c.work + work }

def grow? (c : VeriBlockChain) : Option VeriBlockChain := c.growAt? c.nextTimestamp

/-- Grows by `count` headers. -/
def growBy? (c : VeriBlockChain) : Nat → Option VeriBlockChain
  | 0 => some c
  | count + 1 => do (← c.grow?).growBy? count

/-- The entry that an index makes for the tip. -/
def tipEntry? (c : VeriBlockChain) : Option Entry := c.tip?.map (⟨·, c.work, .zero⟩)

end VeriBlockChain

end EndorsedChain.Sample
