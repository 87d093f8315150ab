/-! # Parameters of the followed network -/

namespace EndorsedChain

structure NetworkParameters where
  /-- The retargeted difficulty never goes below this value. -/
  minimumDifficulty : UInt64
  /-- The main network has none. -/
  transactionMagicByte : Option UInt8
deriving DecidableEq, Repr

namespace NetworkParameters

def mainnet : NetworkParameters := ⟨900000000000, none⟩

def testnet : NetworkParameters := ⟨100000000, some 0xaa⟩

instance : Inhabited NetworkParameters := ⟨mainnet⟩

end NetworkParameters

end EndorsedChain
