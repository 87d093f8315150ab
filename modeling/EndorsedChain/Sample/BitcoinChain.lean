import EndorsedChain.Entry.Bitcoin
import EndorsedChain.Sample.VeriBlockChain

/-! # Regular chains of Bitcoin headers -/

namespace EndorsedChain.Sample

open Bitcoin

def bitcoinBits : UInt32 := 0x1d00ffff

/-- What `bitcoinBits` stands for. -/
def bitcoinWork : Nat := 0xffff <<< 208

/-- A chain from any height on. -/
structure BitcoinChain where
  start : UInt32
  entries : Array Entry := #[]
deriving DecidableEq, Repr

namespace BitcoinChain

def tip? (c : BitcoinChain) : Option Entry := c.entries.back?

def nextEntry (c : BitcoinChain) : Entry :=
  let height := c.start + UInt32.ofNat c.entries.size
  let draft : Draft :=
    { version := 0x20000000
      previousBlock := (c.tip?.map (·.hash)).getD .zero
      merkleRoot := .sha256 (BigEndian.u32 height)
      timestamp := genesisTimestamp + height * 600
      bits := bitcoinBits
      nonce := height }
  ⟨draft.seal, (c.tip?.map (·.work)).getD 0 + bitcoinWork, height⟩

def grow (c : BitcoinChain) : BitcoinChain := { c with entries := c.entries.push c.nextEntry }

def growBy (c : BitcoinChain) : Nat → BitcoinChain
  | 0 => c
  | count + 1 => c.grow.growBy count

end BitcoinChain

end EndorsedChain.Sample
