/-! # Positions in a document, and classes of its characters -/

namespace EndorsedChain.Yaml

def isBlank (c : Char) : Bool := c == ' ' || c == '\t'

/-- The characters that end a line. -/
def isBreak (c : Char) : Bool := c == '\n' || c == '\r'

def isSpace (c : Char) : Bool := isBlank c || isBreak c

/-- Whether a word ends before this character, or at the end of the document. -/
def endsWord : Option Char → Bool
  | none => true
  | some c => isSpace c

/-- The indicators that structure flow collections. -/
def isFlow (c : Char) : Bool := c == ',' || c == '[' || c == ']' || c == '{' || c == '}'

def isWord (c : Char) : Bool := c.isAlphanum || c == '_' || c == '-'

/-- Drops a carriage return before a line feed. The document ends at a null character. -/
def normalize : List Char → List Char
  | [] => []
  | '\r' :: '\n' :: rest => '\n' :: normalize rest
  | c :: rest =>
    if c.toNat = 0 then [] else c :: normalize rest

/-- The unread part of a document and where it starts. -/
structure Cursor where
  rest : List Char
  index : Nat := 0
  line : Nat := 0
  column : Nat := 0
deriving DecidableEq, Repr

namespace Cursor

/-- Only a line feed starts a new line of positions: a lone carriage return takes a column. -/
def skip (c : Cursor) : Cursor :=
  match c.rest with
  | [] => c
  | '\n' :: rest => { rest, index := c.index + 1, line := c.line + 1 }
  | _ :: rest => { c with rest, index := c.index + 1, column := c.column + 1 }

def skipN (c : Cursor) (n : Nat) : Cursor := n.repeat skip c

/-- Splits off the longest run of characters of a kind. -/
def takeWhile (c : Cursor) (p : Char → Bool) : List Char × Cursor :=
  let run := c.rest.takeWhile p
  (run, c.skipN run.length)

def skipWhile (c : Cursor) (p : Char → Bool) : Cursor := (c.takeWhile p).2

/-- Skips blanks, a comment and a line break; nothing else may stand on the line. -/
def skipLine? (c : Cursor) : Option Cursor :=
  let c := c.skipWhile isBlank
  let c := if c.rest.head? = some '#' then c.skipWhile (!isBreak ·) else c
  match c.rest with
  | [] => some c
  | ch :: _ => if isBreak ch then some c.skip else none

/-- Whether three characters that mark the start or end of a document stand at the start of a
line. -/
def atMarker (c : Cursor) (mark : Char) : Bool :=
  c.column == 0 &&
    match c.rest with
    | x :: y :: z :: rest => x == mark && y == mark && z == mark && endsWord rest.head?
    | _ => false

def atAnyMarker (c : Cursor) : Bool := c.atMarker '-' || c.atMarker '.'

end Cursor

end EndorsedChain.Yaml
