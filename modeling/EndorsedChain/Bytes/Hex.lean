/-! # Hexadecimal text -/

namespace EndorsedChain.Hex

/-- Why a text is not hexadecimal. A character is reported as the byte it was found in. -/
inductive Error where
  | oddLength
  | invalidCharacter (byte : UInt8) (index : Nat)
deriving DecidableEq, Repr

def digit (n : Nat) : Char := if n < 10 then Char.ofNat (48 + n) else Char.ofNat (87 + n)

def byteDigits (b : UInt8) : List Char := [digit (b.toNat / 16), digit (b.toNat % 16)]

def encode (bytes : List UInt8) : String := String.ofList (bytes.flatMap byteDigits)

/-- The value of a digit, given as its ASCII code; both cases are read. -/
def digitValue? (b : UInt8) : Option Nat :=
  let n := b.toNat
  if 48 ≤ n ∧ n ≤ 57 then some (n - 48)
  else if 97 ≤ n ∧ n ≤ 102 then some (n - 87)
  else if 65 ≤ n ∧ n ≤ 70 then some (n - 55)
  else none

/-- Reads digits two by two; `index` is the position of the first one. -/
def decodePairs (index : Nat) : List UInt8 → Except Error (List UInt8)
  | [] => .ok []
  | [_] => .error .oddLength
  | a :: b :: rest =>
    match digitValue? a, digitValue? b with
    | none, _ => .error (.invalidCharacter a index)
    | some _, none => .error (.invalidCharacter b (index + 1))
    | some high, some low => (decodePairs (index + 2) rest).map (UInt8.ofNat (16 * high + low) :: ·)

/-- An odd number of bytes is reported before any invalid character. -/
def decodeBytes (text : List UInt8) : Except Error (List UInt8) :=
  if text.length % 2 = 1 then .error .oddLength else decodePairs 0 text

def decode (text : String) : Except Error (List UInt8) :=
  decodeBytes text.toUTF8.toList

/-- The text of a code point below 256 between single quotes: control characters, the
no-break space and the soft hyphen are escaped by number. -/
def quoted (b : UInt8) : String :=
  let n := b.toNat
  let body :=
    if n = 0 then "\\0"
    else if n = 9 then "\\t"
    else if n = 10 then "\\n"
    else if n = 13 then "\\r"
    else if n = 39 then "\\'"
    else if n = 92 then "\\\\"
    else if n < 32 ∨ 127 ≤ n ∧ n ≤ 160 ∨ n = 173 then
      "\\u\x7b" ++ String.ofList (Nat.toDigits 16 n) ++ "\x7d"
    else String.singleton (Char.ofNat n)
  "'" ++ body ++ "'"

def Error.message : Error → String
  | .oddLength => "Odd number of digits"
  | .invalidCharacter b index =>
    "Invalid character " ++ quoted b ++ " at position " ++ toString index

end EndorsedChain.Hex
