import EndorsedChain.Bytes.Hex

/-! # Malformed hashes -/

namespace EndorsedChain

inductive HashError where
  | invalidSize (got expected : Nat)
  | invalidHexEncoding (cause : Hex.Error)
deriving DecidableEq, Repr

def HashError.message : HashError → String
  | .invalidSize got expected =>
    s!"invalid hash size, expected {expected} bytes but received {got}"
  | .invalidHexEncoding _ => "invalid hex encoding for hash value"

/-- Reads the bytes of a hash written in hexadecimal. -/
def HashError.ofHex (text : String) : Except HashError (List UInt8) :=
  (Hex.decode text).mapError .invalidHexEncoding

end EndorsedChain
