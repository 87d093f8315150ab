import EndorsedChain.Yaml.Scalar

/-!
# Tokens

Indentation opens and closes block collections. A mapping key is recognized by the colon after it,
so the scanner remembers, for each level of nesting, where the latest key may have started.
-/

namespace EndorsedChain.Yaml

inductive Token where
  | directive
  | documentStart
  | documentEnd
  | sequenceStart
  | mappingStart
  | blockEnd
  | entry
  | flowSequenceStart
  | flowSequenceEnd
  | flowMappingStart
  | flowMappingEnd
  | flowEntry
  | key
  | value
  | alias (name : String)
  | anchor (name : String)
  | tag (handle suffix : String)
  | scalar (style : Style) (text : String)
deriving DecidableEq, Repr

/-- A place where a key may have started. -/
structure KeyStart where
  possible : Bool := false
  /-- In a flow collection, at the column of the block collection around it, nothing but a key may
  start. -/
  required : Bool := false
  /-- How many tokens come before it. -/
  position : Nat := 0
  cursor : Cursor := { rest := [] }

structure Scanner where
  cursor : Cursor
  tokens : Array Token := #[]
  /-- The column of the innermost block collection, -1 outside of any. -/
  indent : Int := -1
  indents : List Int := []
  keyAllowed : Bool := true
  /-- One for each flow collection that is open, and one outside of them. -/
  keys : List KeyStart := [{}]
  /-- Directly after a quoted scalar a colon needs no space after it. -/
  adjacentAt : Nat := 0

namespace Scanner

def inFlow (s : Scanner) : Bool := 1 < s.keys.length

def push (s : Scanner) (t : Token) : Scanner := { s with tokens := s.tokens.push t }

def key (s : Scanner) : KeyStart := s.keys.headD {}

def setKey (s : Scanner) (k : KeyStart) : Scanner := { s with keys := k :: s.keys.tail }

/-- Closes the block collections that are indented further than a column. -/
def closeBlocks (column : Int) (s : Scanner) : Scanner :=
  if s.inFlow then s
  else go s.indents s
where
  go : List Int → Scanner → Scanner
    | outer :: outers, s =>
      if column < s.indent then go outers ({ s with indent := outer, indents := outers }.push .blockEnd)
      else s
    | [], s => s

/-- Opens a block collection if a column is indented further than the innermost one. Its token goes
to a position among the tokens. -/
def openBlock (s : Scanner) (column : Nat) (position : Nat) (t : Token) : Scanner :=
  if s.inFlow || decide ((column : Int) ≤ s.indent) then s
  else
    { s with
      indent := column, indents := s.indent :: s.indents
      tokens := (s.tokens.toList.take position ++ t :: s.tokens.toList.drop position).toArray }

/-- No key starts here; one that is required cannot be given up. -/
def dropKey? (s : Scanner) : Option Scanner :=
  if s.key.possible && s.key.required then none
  else some (s.setKey { s.key with possible := false })

/-- Remembers that a key may start here. -/
def saveKey? (s : Scanner) : Option Scanner :=
  if s.keyAllowed then do
    let s ← s.dropKey?
    return s.setKey {
      possible := true
      required := s.inFlow && s.indent == s.cursor.column
      position := s.tokens.size
      cursor := s.cursor }
  else some s

/-- A key ends on its line and within 1024 characters. -/
def dropStaleKeys? (s : Scanner) : Option Scanner := do
  let keys ← s.keys.mapM fun k =>
    if k.possible && (decide (k.cursor.line < s.cursor.line)
        || decide (k.cursor.index + 1024 < s.cursor.index)) then
      if k.required then none else some { k with possible := false }
    else some k
  return { s with keys }

/-- Skips spaces, line breaks and comments. Tabs are skipped where no key may start. -/
def skipGap (s : Scanner) : Nat → Scanner
  | 0 => s
  | fuel + 1 =>
    match s.cursor.rest with
    | ' ' :: _ => skipGap { s with cursor := s.cursor.skip } fuel
    | '\t' :: _ =>
      if s.inFlow || !s.keyAllowed then skipGap { s with cursor := s.cursor.skip } fuel else s
    | '#' :: _ => skipGap { s with cursor := s.cursor.skipWhile (!isBreak ·) } fuel
    | c :: _ =>
      if isBreak c then
        skipGap { s with cursor := s.cursor.skip, keyAllowed := s.keyAllowed || !s.inFlow } fuel
      else s
    | [] => s

/-- Pushes a token of so many characters. -/
def pushSkip (s : Scanner) (n : Nat) (t : Token) : Scanner :=
  { s with cursor := s.cursor.skipN n }.push t

/-- A run of characters with the escapes of a tag. An escape is a percent sign and two hexadecimal
digits for each byte of a character; of several bytes it is the number that they spell. -/
def unescapeUri? (run : List Char) : Option (List Char) :=
  go run 0 0
where
  go : List Char → Nat → Nat → Option (List Char)
    | [], pending, _ => if pending = 0 then some [] else none
    | '%' :: x :: y :: rest, pending, code =>
      match hexValue? [x, y] with
      | none => none
      | some byte =>
        let width :=
          if byte < 0x80 then 1
          else if byte < 0xc0 then 0
          else if byte < 0xe0 then 2
          else if byte < 0xf0 then 3
          else if byte < 0xf8 then 4
          else 0
        if 0 < pending && byte / 64 != 2 || pending = 0 && width = 0 then none
        else
          let code := 256 * code + byte
          let pending := if pending = 0 then width - 1 else pending - 1
          if 0 < pending then go rest pending code
          else do return (← codeChar? code) :: (← go rest 0 0)
    | c :: rest, pending, _ =>
      if c = '%' || 0 < pending then none else (go rest 0 0).map (c :: ·)

def isUri (c : Char) : Bool := isWord c || ";/?:@&=+$,.!~*'()[]%".toList.contains c

/-- The longest run of characters of a tag, without its escapes. -/
def uri? (c : Cursor) : Option (List Char × Cursor) := do
  let (run, c) := c.takeWhile isUri
  return (← unescapeUri? run, c)

/-- Two numbers with a point between them. -/
def version? (c : Cursor) : Option Cursor := do
  let number? := fun (c : Cursor) => do
    let (digits, c) := c.takeWhile Char.isDigit
    guard (!digits.isEmpty && digits.length ≤ 9)
    return c
  let c ← number? c
  guard (c.rest.head? = some '.')
  number? c.skip

/-- A handle and what it stands for. -/
def tagRule? (c : Cursor) : Option Cursor := do
  guard (c.rest.head? = some '!')
  let (word, c) := c.skip.takeWhile isWord
  let c ←
    if c.rest.head? = some '!' then some c.skip
    else if word.isEmpty then some c
    else none
  let (uri, c) ← uri? (c.skipWhile isBlank)
  guard (!uri.isEmpty && endsWord c.rest.head?)
  return c

/-- A directive only has to be well formed. -/
def directive? (s : Scanner) : Option Scanner := do
  let s ← (s.closeBlocks (-1)).dropKey?
  let (name, c) := s.cursor.skip.takeWhile isWord
  guard (!name.isEmpty && endsWord c.rest.head?)
  let c ←
    if name = "YAML".toList then version? (c.skipWhile isBlank)
    else if name = "TAG".toList then tagRule? (c.skipWhile isBlank)
    else some (c.skipWhile (!isBreak ·))
  return { s with cursor := ← c.skipLine?, keyAllowed := false }.push .directive

def marker? (s : Scanner) (t : Token) : Option Scanner := do
  let s ← (s.closeBlocks (-1)).dropKey?
  return { s with keyAllowed := false }.pushSkip 3 t

def flowStart? (s : Scanner) (t : Token) : Option Scanner := do
  let s ← s.saveKey?
  return { s with keys := {} :: s.keys, keyAllowed := true }.pushSkip 1 t

def flowEnd? (s : Scanner) (t : Token) : Option Scanner := do
  let s ← s.dropKey?
  let keys := if s.inFlow then s.keys.tail else s.keys
  return { s with keys, keyAllowed := false }.pushSkip 1 t

def flowEntry? (s : Scanner) : Option Scanner := do
  let s ← s.dropKey?
  return { s with keyAllowed := true }.pushSkip 1 .flowEntry

def entry? (s : Scanner) : Option Scanner := do
  guard (!s.inFlow && s.keyAllowed)
  let s := s.openBlock s.cursor.column s.tokens.size .sequenceStart
  let s ← s.dropKey?
  return { s with keyAllowed := true }.pushSkip 1 .entry

/-- A key behind a question mark. -/
def explicitKey? (s : Scanner) : Option Scanner := do
  guard (s.inFlow || s.keyAllowed)
  let s := s.openBlock s.cursor.column s.tokens.size .mappingStart
  let s ← s.dropKey?
  return { s with keyAllowed := !s.inFlow }.pushSkip 1 .key

/-- A colon. What may have been a key is one now. -/
def value? (s : Scanner) : Option Scanner :=
  let k := s.key
  if k.possible then
    let tokens := s.tokens.toList.take k.position ++ Token.key :: s.tokens.toList.drop k.position
    let s := { s with tokens := tokens.toArray }
    let s := s.openBlock k.cursor.column k.position .mappingStart
    let s := s.setKey { k with possible := false }
    some ({ s with keyAllowed := false }.pushSkip 1 .value)
  else do
    guard (s.inFlow || s.keyAllowed)
    let s := s.openBlock s.cursor.column s.tokens.size .mappingStart
    return { s with keyAllowed := !s.inFlow }.pushSkip 1 .value

/-- The name of an anchor or of an alias to it. -/
def name? (s : Scanner) (t : String → Token) : Option Scanner := do
  let s ← s.saveKey?
  let (name, c) := s.cursor.skip.takeWhile isWord
  let ended := endsWord c.rest.head? || c.rest.head?.any "?:,]\x7d%@\x60".toList.contains
  guard (!name.isEmpty && ended)
  return { s with cursor := c, keyAllowed := false }.push (t (String.ofList name))

/-- A tag: `!<uri>`, a handle between two exclamation marks and a suffix, or one exclamation mark
and a suffix. -/
def tag? (s : Scanner) : Option Scanner := do
  let s ← s.saveKey?
  let c := s.cursor.skip
  let (handle, suffix, c) ←
    if c.rest.head? = some '<' then do
      let (uri, c) ← uri? c.skip
      guard (!uri.isEmpty && c.rest.head? = some '>')
      pure ([], uri, c.skip)
    else do
      let (word, next) := c.takeWhile isWord
      if next.rest.head? = some '!' then do
        let (suffix, next) ← uri? next.skip
        guard (!suffix.isEmpty)
        pure ('!' :: word ++ ['!'], suffix, next)
      else do
        let (more, next) ← uri? next
        let suffix := word ++ more
        pure (if suffix.isEmpty then ([], ['!'], next) else (['!'], suffix, next))
  guard (endsWord c.rest.head?)
  return { s with cursor := c, keyAllowed := false }.push
    (.tag (String.ofList handle) (String.ofList suffix))

def block? (s : Scanner) (style : Style) : Option Scanner := do
  let s ← s.saveKey?
  let (text, c) ← scanBlock? (style = .folded) s.indent s.cursor.skip
  return { s with cursor := c, keyAllowed := true }.push (.scalar style (String.ofList text))

def quoted? (s : Scanner) (style : Style) : Option Scanner := do
  let s ← s.saveKey?
  let c := s.cursor.skip
  let (text, c) ← scanQuoted (style = .singleQuoted) (c.rest.length + 1) c []
  return { s with cursor := c, keyAllowed := false, adjacentAt := c.index }.push
    (.scalar style (String.ofList text))

def plain? (s : Scanner) : Option Scanner := do
  let s ← s.saveKey?
  let (text, broken, c) ←
    scanPlain s.inFlow (s.indent + 1).toNat (s.cursor.rest.length + 1) s.cursor [] [] false
  return { s with cursor := c, keyAllowed := broken }.push (.scalar .plain (String.ofList text))

/-- The token at the cursor; `next` is the character after `c`. -/
def token? (s : Scanner) (c : Char) (next : Option Char) : Option Scanner :=
  let blankNext := endsWord next
  if s.cursor.column = 0 && c = '%' then s.directive?
  else if s.cursor.atMarker '-' then s.marker? .documentStart
  else if s.cursor.atMarker '.' then s.marker? .documentEnd
  else
    match c with
    | '[' => s.flowStart? .flowSequenceStart
    | '{' => s.flowStart? .flowMappingStart
    | ']' => s.flowEnd? .flowSequenceEnd
    | '}' => s.flowEnd? .flowMappingEnd
    | ',' => s.flowEntry?
    | '*' => s.name? .alias
    | '&' => s.name? .anchor
    | '!' => s.tag?
    | '"' => s.quoted? .doubleQuoted
    | '\'' => s.quoted? .singleQuoted
    | '-' => if blankNext then s.entry? else s.plain?
    | '?' => if blankNext then s.explicitKey? else s.plain?
    | ':' =>
      if blankNext || s.inFlow && (next.any isFlow || s.cursor.index == s.adjacentAt) then s.value?
      else s.plain?
    | '|' => if s.inFlow then s.plain? else s.block? .literal
    | '>' => if s.inFlow then s.plain? else s.block? .folded
    | '%' | '@' => none
    | _ => if c.toNat = 96 then none else s.plain?

def scan : Nat → Scanner → Option (List Token)
  | 0, _ => none
  | fuel + 1, s => do
    let s ← (s.skipGap (s.cursor.rest.length + 1)).dropStaleKeys?
    let s := s.closeBlocks s.cursor.column
    match s.cursor.rest with
    | [] =>
      let s ← (s.closeBlocks (-1)).dropKey?
      return s.tokens.toList
    | c :: rest => scan fuel (← s.token? c rest.head?)

end Scanner

/-- The tokens of a text, if it has any meaning. -/
def Token.ofText? (text : List Char) : Option (List Token) :=
  let text := normalize text
  Scanner.scan (2 * text.length + 2) { cursor := { rest := text } }

end EndorsedChain.Yaml
