import EndorsedChain.Document.Reading
import EndorsedChain.Document.Rendering
import EndorsedChain.Network.Parameters

/-! # Documents of network parameters -/

namespace EndorsedChain.NetworkParameters

def layout : Layout NetworkParameters where
  fields := [
    ("minimum_difficulty", .nat 64 (·.minimumDifficulty.toNat) fun p n =>
      { p with minimumDifficulty := UInt64.ofNat n }),
    ("transaction_magic_byte", .optionalNat 8 (·.transactionMagicByte.map UInt8.toNat) fun p n =>
      { p with transactionMagicByte := n.map UInt8.ofNat })]
  required := ["minimum_difficulty"]

def ofYaml? (text : String) : Option NetworkParameters := layout.ofYaml? .mainnet text

def ofYamlBytes? (bytes : List UInt8) : Option NetworkParameters :=
  layout.ofYamlBytes? .mainnet bytes

def toYaml (p : NetworkParameters) : String := layout.toYaml p

end EndorsedChain.NetworkParameters
