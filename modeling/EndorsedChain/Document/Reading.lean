import EndorsedChain.Document.Layout
import EndorsedChain.Yaml.Atom

/-!
# Reading records

A record is written as a mapping from the names of its fields, or as the sequence of its fields in
order. What is not given keeps the value that it has.
-/

namespace EndorsedChain

open Yaml (Node)

namespace Decimal

/-- The largest multiple of 10⁻⁸ that is not above a number. -/
def ofScientific (negative : Bool) (s : Scientific) : Decimal :=
  let n : Int := s.digits * Nat.pow 10 (s.exponent + 8).toNat
  ⟨(if negative then -n else n).fdiv (Nat.pow 10 (-(s.exponent + 8)).toNat)⟩

/-- A double stands for the shortest number that is rounded to it. -/
def ofAtom? : Yaml.Atom → Option Decimal
  | .int n => some (.ofInt n)
  | .float negative magnitude => some (.ofScientific negative magnitude.shortest)
  | .text s => parseChars? s.toList
  | _ => none

end Decimal

namespace Yaml.Node

def nat? (bits : Nat) (n : Node) : Option Nat := do
  match ← n.atom? with
  | .int n =>
    guard (Yaml.Atom.isUnsigned bits n)
    return n.toNat
  | _ => none

def bool? (n : Node) : Option Bool := do
  match ← n.atom? with
  | .bool b => return b
  | _ => none

/-- Only a plain scalar says that a field is absent. -/
def isNull (n : Node) : Bool :=
  match n with
  | .scalar .plain _ _ => n.atom? == some .null
  | _ => false

def decimal? (n : Node) : Option Decimal := do Decimal.ofAtom? (← n.atom?)

def items? : Node → Option (List Node)
  | .sequence items => some items
  | _ => none

def text? : Node → Option String
  | .scalar _ _ text => some text
  | _ => none

/-- The fields that a record gives, each once. -/
def assignments? (names : List String) : Node → Option (List (String × Node))
  | .mapping entries => do
    let given ← entries.mapM fun entry => do return (← entry.1.text?, entry.2)
    guard (decide (given.map (·.1)).Nodup)
    return given
  | .sequence items => do
    guard (decide (items.length ≤ names.length))
    return names.zip items
  | .scalar .. => none

end Yaml.Node

variable {σ : Type}

/-- Replaces a field by what a node says. -/
def Field.read? (s : σ) (n : Node) : Field σ → Option σ
  | .nat bits _ set => (n.nat? bits).map (set s)
  | .optionalNat bits _ set =>
    if n.isNull then some (set s none) else (n.nat? bits).map fun v => set s (some v)
  | .flag _ set => n.bool?.map (set s)
  | .decimal _ set => n.decimal?.map (set s)
  | .decimals _ set => do return set s (← (← n.items?).mapM Node.decimal?)

/-- Replaces fields by name. -/
def readNamed? (readers : List (String × (σ → Node → Option σ))) (required : List String)
    (s : σ) (n : Node) : Option σ := do
  let given ← n.assignments? (readers.map (·.1))
  guard (required.all fun name => given.any (·.1 = name))
  given.foldlM (fun s (name, n) => do (← readers.lookup name) s n) s

def readFields? (fields : List (String × Field σ)) (required : List String) (s : σ) (n : Node) :
    Option σ :=
  readNamed? (fields.map fun (name, f) => (name, fun s n => f.read? s n)) required s n

namespace Layout

def read? (l : Layout σ) (s : σ) (n : Node) : Option σ :=
  readNamed?
    (l.fields.map (fun (name, f) => (name, fun s n => f.read? s n))
      ++ l.groups.map fun (name, fields) => (name, readFields? fields []))
    l.required s n

/-- Reads the only document of a text over a record. -/
def ofYaml? (l : Layout σ) (s : σ) (text : String) : Option σ := do
  l.read? s (← Node.ofText? text)

/-- Text is UTF-8. -/
def ofYamlBytes? (l : Layout σ) (s : σ) (bytes : List UInt8) : Option σ := do
  l.ofYaml? s (← String.fromUTF8? ⟨bytes.toArray⟩)

end Layout

end EndorsedChain
