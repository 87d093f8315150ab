import EndorsedChain.Yaml.Binary64
import EndorsedChain.Yaml.Node

/-!
# What scalars say

Without a tag a plain scalar may look like nothing, a truth value or a number, and any other is
text. With a tag of the core schema a scalar of any style has to look as the tag says.
-/

namespace EndorsedChain.Yaml

inductive Atom where
  | null
  | bool (b : Bool)
  | int (n : Int)
  | float (negative : Bool) (magnitude : Binary64)
  | text (s : String)
deriving DecidableEq, Repr

namespace Atom

/-! ## Integers -/

/-- The number that digits spell in a base up to 16. -/
def digits? (base : Nat) (cs : List Char) : Option Nat :=
  if cs.isEmpty then none
  else cs.foldlM (fun n c => do
    let d ← hexValue? [c]
    guard (d < base)
    return base * n + d) 0

/-- Digits behind an optional plus sign. -/
def natural? (base : Nat) : List Char → Option Nat
  | '+' :: cs => digits? base cs
  | cs => digits? base cs

/-- Digits behind an optional sign. -/
def integer? (base : Nat) : List Char → Option Int
  | '-' :: cs => (digits? base cs).map fun n => -n
  | cs => (natural? base cs).map Int.ofNat

/-- The integers of so many bits without a sign. -/
def isUnsigned (bits : Nat) (n : Int) : Bool := decide (0 ≤ n ∧ n.toNat < Nat.pow 2 bits)

/-- The integers of 64 bits with a sign. -/
def isSigned64 (n : Int) : Bool := decide (Int64.minValue.toInt ≤ n ∧ n ≤ Int64.maxValue.toInt)

def base? : Char → Option Nat
  | 'x' => some 16
  | 'o' => some 8
  | 'b' => some 2
  | _ => none

/-- A number of 64 bits behind a zero and the letter of its base. -/
def based? : List Char → Option Int
  | '-' :: '0' :: c :: cs => do
    let n : Int := -(← digits? (← base? c) cs)
    guard (isSigned64 n)
    return n
  | '+' :: '0' :: c :: cs | '0' :: c :: cs => do
    let n ← natural? (← base? c) cs
    guard (n < UInt64.size)
    return n
  | _ => none

/-- Digits behind a zero are no number. -/
def isPadded (cs : List Char) : Bool :=
  match cs.dropWhile fun c => c = '-' || c = '+' with
  | '0' :: c :: rest => (c :: rest).all Char.isDigit
  | _ => false

/-! ## Numbers with a point or an exponent -/

/-- The exponent behind the digits of a number. -/
def exponent? : List Char → Option Int
  | [] => some 0
  | c :: cs => if c = 'e' || c = 'E' then integer? 10 cs else none

def scientific? (cs : List Char) : Option Scientific := do
  let whole := cs.takeWhile Char.isDigit
  let rest := cs.drop whole.length
  let (fraction, rest) :=
    match rest with
    | '.' :: rest => (rest.takeWhile Char.isDigit, rest.dropWhile Char.isDigit)
    | rest => ([], rest)
  return ⟨← digits? 10 (whole ++ fraction), (← exponent? rest) - fraction.length⟩

/-- A number that has a nearest double. -/
def float? (cs : List Char) : Option Atom := do
  let (negative, cs) := match cs with
    | '-' :: cs => (true, cs)
    | '+' :: cs => (false, cs)
    | cs => (false, cs)
  return .float negative (← Binary64.ofScientific? (← scientific? cs))

/-! ## Scalars -/

/-- Integers between 64 and 128 bits are refused; wider ones are read as numbers with a point. -/
def ofPlain? (s : String) : Option Atom :=
  let cs := s.toList
  let other := (float? cs).getD (.text s)
  if s = "~" || s = "null" then some .null
  else if s = "true" then some (.bool true)
  else if s = "false" then some (.bool false)
  else
    match based? cs with
    | some n => some (.int n)
    | none =>
      if isPadded cs then some (.text s)
      else
        match integer? 10 cs with
        | none => some other
        | some n =>
          if isUnsigned 64 n || isSigned64 n then some (.int n)
          else if isUnsigned 128 n || isUnsigned 127 (-n - 1) then none
          else some other

def ofTagged? (tag : Tag) (s : String) : Option Atom :=
  match tag.handle, tag.suffix with
  | "!!", "bool" =>
    if s = "true" then some (.bool true) else if s = "false" then some (.bool false) else none
  | "!!", "int" => do
    let n ← integer? 10 s.toList
    guard (isSigned64 n)
    return .int n
  | "!!", "float" => float? s.toList
  | "!!", "null" => if s = "~" || s = "null" then some .null else none
  | _, _ => some (.text s)

/-- The meaning of a scalar, if it has one. -/
def ofScalar? (style : Style) (tag : Option Tag) (s : String) : Option Atom :=
  match tag with
  | some tag => ofTagged? tag s
  | none => if style = .plain then ofPlain? s else some (.text s)

end Atom

def Node.atom? : Node → Option Atom
  | .scalar style tag text => Atom.ofScalar? style tag text
  | _ => none

end EndorsedChain.Yaml
