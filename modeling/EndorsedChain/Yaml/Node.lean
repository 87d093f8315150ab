import EndorsedChain.Yaml.Token

/-!
# Nodes

The tree that tokens stand for. An alias is replaced by the node with its anchor.
-/

namespace EndorsedChain.Yaml

structure Tag where
  handle : String
  suffix : String
deriving DecidableEq, Repr

inductive Node where
  | scalar (style : Style) (tag : Option Tag) (text : String)
  | sequence (items : List Node)
  | mapping (entries : List (Node × Node))
deriving Repr

namespace Node

/-- What stands for a node that is left out. -/
def null : Node := .scalar .plain none "~"

instance : Inhabited Node := ⟨null⟩

/-- The unread tokens, the anchors in order, the latest first, and the nodes that have been read
behind them. Anchors are counted, since a name may be given again before its node is complete. -/
structure Source where
  tokens : List Token
  anchors : List (String × Nat) := []
  nodes : List (Nat × Node) := []

abbrev Parser := StateT Source Option

namespace Parser

def peek : Parser (Option Token) := return (← get).tokens.head?

def skip : Parser Unit := modify fun s => { s with tokens := s.tokens.tail }

/-- Skips the next token if it is this one. -/
def take (t : Token) : Parser Bool := do
  if (← peek) = some t then
    skip
    return true
  else return false

def expect (t : Token) : Parser Unit := do guard (← take t)

/-- A node is left out if one of these tokens is next. -/
def nodeBefore (ends : List Token) (node : Parser Node) : Parser Node := do
  if (← peek).any ends.contains then return null else node

/-- Counts an anchor. -/
def anchor (name : String) : Parser Nat := do
  let s ← get
  let number := s.anchors.length
  set { s with anchors := (name, number) :: s.anchors }
  return number

/-- Properties come in either order. -/
def properties : Parser (Option Nat × Option Tag) := do
  let s ← get
  let (name, tag, tokens) : Option String × Option Tag × List Token := match s.tokens with
    | .anchor a :: .tag h t :: rest => (some a, some ⟨h, t⟩, rest)
    | .tag h t :: .anchor a :: rest => (some a, some ⟨h, t⟩, rest)
    | .anchor a :: rest => (some a, none, rest)
    | .tag h t :: rest => (none, some ⟨h, t⟩, rest)
    | rest => (none, none, rest)
  set { s with tokens }
  return (← name.mapM anchor, tag)

/-- An alias stands for the node behind the latest anchor of its name. Inside of that node it has no
meaning. -/
def aliased (name : String) : Parser Node := do
  skip
  let s ← get
  s.nodes.lookup (← s.anchors.lookup name)

def anchored (number : Option Nat) (n : Node) : Parser Node := do
  if let some number := number then
    modify fun s => { s with nodes := (number, n) :: s.nodes }
  return n

mutual

/-- Reads a node. Block collections stand only where `block` allows, and entries without an
indentation of their own where `indentless` does. -/
def node : Nat → Bool → Bool → Parser Node
  | 0, _, _ => failure
  | fuel + 1, block, indentless => do
    if let some (.alias name) ← peek then aliased name
    else
      let (anchor, tag) ← properties
      match ← peek, block, indentless with
      | some .entry, _, true => do anchored anchor (.sequence (← indentlessItems fuel))
      | some (.scalar style text), _, _ => do
        skip
        anchored anchor (.scalar style tag text)
      | some .flowSequenceStart, _, _ => do
        skip
        anchored anchor (.sequence (← flowItems fuel true))
      | some .flowMappingStart, _, _ => do
        skip
        anchored anchor (.mapping (← flowEntries fuel true))
      | some .sequenceStart, true, _ => do
        skip
        anchored anchor (.sequence (← blockItems fuel))
      | some .mappingStart, true, _ => do
        skip
        anchored anchor (.mapping (← blockEntries fuel))
      | _, _, _ => do
        guard (anchor.isSome || tag.isSome)
        anchored anchor (.scalar .plain tag "")

def indentlessItems : Nat → Parser (List Node)
  | 0 => failure
  | fuel + 1 => do
    if ← take .entry then
      let item ← nodeBefore [.entry, .key, .value, .blockEnd] (node fuel true false)
      return item :: (← indentlessItems fuel)
    else return []

def blockItems : Nat → Parser (List Node)
  | 0 => failure
  | fuel + 1 => do
    if ← take .blockEnd then return []
    else
      expect .entry
      let item ← nodeBefore [.entry, .blockEnd] (node fuel true false)
      return item :: (← blockItems fuel)

def blockEntries : Nat → Parser (List (Node × Node))
  | 0 => failure
  | fuel + 1 => do
    if ← take .blockEnd then return []
    else
      let keyed ← take .key
      guard (keyed || (← peek) = some .value)
      let key ←
        if keyed then nodeBefore [.key, .value, .blockEnd] (node fuel true true) else pure null
      let value ←
        if ← take .value then nodeBefore [.key, .value, .blockEnd] (node fuel true true)
        else pure null
      return (key, value) :: (← blockEntries fuel)

/-- The items of a flow sequence. An item with a key is a mapping with one entry. -/
def flowItems : Nat → Bool → Parser (List Node)
  | 0, _ => failure
  | fuel + 1, first => do
    if ← take .flowSequenceEnd then return []
    else
      if !first then expect .flowEntry
      if ← take .flowSequenceEnd then return []
      else
        let item ←
          if ← take .key then do
            let key ← nodeBefore [.value, .flowEntry, .flowSequenceEnd] (node fuel false false)
            let value ←
              if ← take .value then nodeBefore [.flowEntry, .flowSequenceEnd] (node fuel false false)
              else pure null
            pure (.mapping [(key, value)])
          else node fuel false false
        return item :: (← flowItems fuel false)

/-- The entries of a flow mapping. What is not marked as a key has no value. -/
def flowEntries : Nat → Bool → Parser (List (Node × Node))
  | 0, _ => failure
  | fuel + 1, first => do
    if ← take .flowMappingEnd then return []
    else
      if !first then expect .flowEntry
      if ← take .flowMappingEnd then return []
      else
        let keyed := (← take .key) || (← peek) = some .value
        let entry ←
          if keyed then do
            let key ← nodeBefore [.value, .flowEntry, .flowMappingEnd] (node fuel false false)
            let value ←
              if ← take .value then nodeBefore [.flowEntry, .flowMappingEnd] (node fuel false false)
              else pure null
            pure (key, value)
          else pure (← node fuel false false, null)
        return entry :: (← flowEntries fuel false)

end

/-- Skips directives and the mark at the start of a document, if there are any. -/
def opening : Parser Bool := do
  let directives := (← get).tokens.takeWhile (· = .directive)
  modify fun s => { s with tokens := s.tokens.drop directives.length }
  let marked ← take .documentStart
  guard (marked || directives.isEmpty)
  return marked

/-- Reads a document and the marks at its end. -/
def document : Parser Node := do
  let fuel := 2 * (← get).tokens.length + 2
  let body := node fuel true false
  let tree ←
    if ← opening then
      if (← peek).isNone then pure null
      else nodeBefore [.directive, .documentStart, .documentEnd] body
    else body
  modify fun s => { s with tokens := s.tokens.dropWhile (· = .documentEnd) }
  return tree

end Parser

/-- The tree of a text that holds exactly one document. -/
def ofText? (text : String) : Option Node := do
  let (tree, left) ← Parser.document { tokens := ← Token.ofText? text.toList }
  guard left.tokens.isEmpty
  return tree

end Node

end EndorsedChain.Yaml
