import EndorsedChain.Yaml.Cursor

/-!
# Scalars

Plain and quoted scalars are folded: a line break becomes a space, further breaks are kept. Block
scalars keep their lines or fold them, and say what becomes of the breaks at their end.
-/

namespace EndorsedChain.Yaml

inductive Style where
  | plain
  | singleQuoted
  | doubleQuoted
  | literal
  | folded
deriving DecidableEq, Repr

/-- What a run of blanks and line breaks stands for. After an escaped break every further one is
kept. -/
def foldGap (escaped : Bool) (run : List Char) : List Char :=
  match run.countP isBreak, escaped with
  | 0, false => run
  | 0, true => []
  | 1, false => [' ']
  | breaks + 1, false => List.replicate breaks '\n'
  | breaks, true => List.replicate breaks '\n'

/-! ## Plain scalars -/

/-- How many characters a plain scalar goes on for before a space or an indicator that ends it. -/
def plainRun (inFlow : Bool) : List Char → Nat
  | [] => 0
  | c :: rest =>
    if isSpace c then 0
    else if c = ':' && (endsWord rest.head? || inFlow && rest.head?.any isFlow) then 0
    else if inFlow && isFlow c then 0
    else plainRun inFlow rest + 1

/-- Whether a run of blanks and breaks has a tab in the indentation of a later line. -/
def tabIndented (indent column : Nat) (run : List Char) : Bool :=
  (run.foldl (fun (bad, broken, column) c =>
    if c = '\n' then (bad, true, 0)
    else
      (bad || broken && c == '\t' && decide (column < indent), broken || isBreak c, column + 1))
    (false, false, column)).1

/-- Reads a plain scalar; `indent` is the least column of its further lines outside of flow
collections. The flag tells whether it ended with a line break. -/
def scanPlain (inFlow : Bool) (indent : Nat) :
    Nat → Cursor → List Char → List Char → Bool → Option (List Char × Bool × Cursor)
  | 0, _, _, _, _ => none
  | fuel + 1, c, text, gap, broken =>
    if c.atAnyMarker || c.rest.head? = some '#' then some (text, broken, c)
    else
      let count := plainRun inFlow c.rest
      let (text, gap, broken) :=
        if count = 0 then (text, gap, broken) else (text ++ gap ++ c.rest.take count, [], false)
      let c := c.skipN count
      let (run, next) := c.takeWhile isSpace
      if run.isEmpty then some (text, broken, c)
      else if tabIndented indent c.column run then none
      else
        let gap := gap ++ foldGap false run
        let broken := broken || run.any isBreak
        if !inFlow && decide (next.column < indent) then some (text, broken, next)
        else scanPlain inFlow indent fuel next text gap broken

/-! ## Quoted scalars -/

def hexValue? (digits : List Char) : Option Nat :=
  digits.foldlM (fun n c =>
    if c.isDigit then some (16 * n + (c.toNat - 48))
    else if 'a' ≤ c ∧ c ≤ 'f' then some (16 * n + (c.toNat - 87))
    else if 'A' ≤ c ∧ c ≤ 'F' then some (16 * n + (c.toNat - 55))
    else none) 0

/-- The character that is written with one letter after a backslash. -/
def escapedChar? (c : Char) : Option Char :=
  match c with
  | '0' => some (.ofNat 0)
  | 'a' => some (.ofNat 7)
  | 'b' => some (.ofNat 8)
  | 't' | '\t' => some '\t'
  | 'n' => some '\n'
  | 'v' => some (.ofNat 11)
  | 'f' => some (.ofNat 12)
  | 'r' => some '\r'
  | 'e' => some (.ofNat 27)
  | 'N' => some (.ofNat 0x85)
  | '_' => some (.ofNat 0xa0)
  | 'L' => some (.ofNat 0x2028)
  | 'P' => some (.ofNat 0x2029)
  | ' ' | '"' | '\'' | '\\' => some c
  | _ => none

/-- How many hexadecimal digits follow a letter after a backslash. -/
def escapeLength? : Char → Option Nat
  | 'x' => some 2
  | 'u' => some 4
  | 'U' => some 8
  | _ => none

def codeChar? (n : Nat) : Option Char := if n.isValidChar then some (.ofNat n) else none

/-- An escape after its backslash: the character, and how long it was written. -/
def unescape? : List Char → Option (Char × Nat)
  | [] => none
  | c :: rest =>
    match escapeLength? c with
    | none => (escapedChar? c).map (·, 1)
    | some count => do
      guard (count ≤ rest.length)
      let char ← codeChar? (← hexValue? (rest.take count))
      return (char, count + 1)

/-- Reads a quoted scalar after its first quote. -/
def scanQuoted (single : Bool) : Nat → Cursor → List Char → Option (List Char × Cursor)
  | 0, _, _ => none
  | fuel + 1, c, text =>
    if c.atAnyMarker then none
    else
      match c.rest with
      | [] => none
      | ch :: rest =>
        if isSpace ch then
          let (run, c) := c.takeWhile isSpace
          scanQuoted single fuel c (text ++ foldGap false run)
        else if single then
          if ch = '\'' then
            if rest.head? = some '\'' then scanQuoted single fuel (c.skipN 2) (text ++ ['\''])
            else some (text, c.skip)
          else scanQuoted single fuel c.skip (text ++ [ch])
        else if ch = '"' then some (text, c.skip)
        else if ch = '\\' then
          if rest.head?.any isBreak then
            let (run, c) := (c.skipN 2).takeWhile isSpace
            scanQuoted single fuel c (text ++ foldGap true run)
          else
            match unescape? rest with
            | none => none
            | some (char, count) =>
              scanQuoted single fuel (c.skipN (count + 1)) (text ++ [char])
        else scanQuoted single fuel c.skip (text ++ [ch])

/-! ## Block scalars -/

/-- What becomes of the breaks at the end of a block scalar. -/
inductive Chomping where
  | strip
  | clip
  | keep
deriving DecidableEq, Repr

def chomping? : Char → Option Chomping
  | '+' => some .keep
  | '-' => some .strip
  | _ => none

/-- The indicators after the first character of a block scalar, in either order: chomping, and an
indentation of one digit that is not 0. -/
def blockHeader? (c : Cursor) : Option (Chomping × Nat × Cursor) :=
  let digit := fun (c : Cursor) =>
    match c.rest with
    | d :: _ =>
      if d.isDigit then if d = '0' then none else some (d.toNat - 48, c.skip) else some (0, c)
    | [] => some (0, c)
  match c.rest.head?.bind chomping? with
  | some chomping => do
    let (increment, c) ← digit c.skip
    return (chomping, increment, c)
  | none => do
    let (increment, c) ← digit c
    if increment = 0 then return (.clip, 0, c)
    match c.rest.head?.bind chomping? with
    | some chomping => return (chomping, increment, c.skip)
    | none => return (.clip, increment, c)

/-- Skips empty lines and indentation. Without an indentation to go by (0), the widest is taken.
The result is the number of breaks and the widest indentation. -/
def blockBreaks (indent : Nat) : Nat → Cursor → Nat → Nat → Option (Nat × Nat × Cursor)
  | 0, _, _, _ => none
  | fuel + 1, c, breaks, widest =>
    let spaces := (c.rest.takeWhile (· = ' ')).length
    let c := c.skipN (if indent = 0 then spaces else min spaces (indent - c.column))
    let widest := max widest c.column
    match c.rest with
    | [] => some (breaks, widest, c)
    | ch :: _ =>
      if isBreak ch then blockBreaks indent fuel c.skip (breaks + 1) widest
      else if ch = '\t' && (indent = 0 || decide (c.column < indent)) then none
      else some (breaks, widest, c)

/-- The lines of a block scalar. `lead` tells whether a line break stands before the line,
`breaks` how many empty lines do, `blankBefore` whether the line before starts with a blank. The
result has what is left of them after the last line. -/
def blockLines (folded : Bool) (indent : Nat) :
    Nat → Cursor → List Char → Bool → Nat → Bool → Option (List Char × Bool × Nat × Cursor)
  | 0, _, _, _, _, _ => none
  | fuel + 1, c, text, lead, breaks, blankBefore =>
    match c.rest with
    | [] => some (text, lead, breaks, c)
    | first :: _ =>
      if c.column ≠ indent then some (text, lead, breaks, c)
      else
        let blank := isBlank first
        let joint :=
          if folded && lead && !blankBefore && !blank then if breaks = 0 then [' '] else []
          else if lead then ['\n']
          else []
        let (line, c) := c.takeWhile (!isBreak ·)
        let text := text ++ joint ++ List.replicate breaks '\n' ++ line
        if c.rest.isEmpty then some (text, false, 0, c)
        else
          match blockBreaks indent (fuel + 1) c.skip 0 0 with
          | none => none
          | some (breaks, _, c) => blockLines folded indent fuel c text true breaks blank

/-- Reads a block scalar after its first character; `parent` is the column of the collection it
stands in, -1 outside of any. -/
def scanBlock? (folded : Bool) (parent : Int) (c : Cursor) : Option (List Char × Cursor) := do
  let (chomping, increment, c) ← blockHeader? c
  let c ← c.skipLine?
  let fuel := c.rest.length + 1
  let given := if increment = 0 then 0 else (max parent 0).toNat + increment
  let (breaks, widest, c) ← blockBreaks given fuel c 0 0
  let indent := if given = 0 then max (max widest (parent + 1).toNat) 1 else given
  let (text, lead, breaks, c) ← blockLines folded indent fuel c [] false breaks false
  let last := if lead then ['\n'] else []
  match chomping with
  | .strip => return (text, c)
  | .clip => return (text ++ last, c)
  | .keep => return (text ++ last ++ List.replicate breaks '\n', c)

end EndorsedChain.Yaml
