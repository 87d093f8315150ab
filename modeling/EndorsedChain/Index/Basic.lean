import EndorsedChain.Entry.Bitcoin
import EndorsedChain.Entry.VeriBlock
import EndorsedChain.Index.Error
import EndorsedChain.Index.Overlay
import EndorsedChain.Network.Parameters
import EndorsedChain.Store.Walk

/-!
# The index of VeriBlock headers

An index keeps the headers of all forks and points to the head of the best chain. The Bitcoin
headers that proofs are looked up in are put into a store of their own by whoever holds the index.
-/

namespace EndorsedChain

structure Index where
  params : NetworkParameters
  store : Store VeriBlock.Entry VBlake := .empty
  bitcoin : Store Bitcoin.Entry Digest := .empty
  mode : Mode := .idle
deriving DecidableEq, Repr

namespace Index

open VeriBlock

def isSpeculating (i : Index) : Bool := i.mode.isSpeculating

/-- Looks a header up in the overlay, then in the store. -/
def lookup (i : Index) (hash : VBlake) : Option Entry :=
  (i.mode.overlay.get hash).or (i.store.get hash)

def get (i : Index) (hash : VBlake) : Option Header := (i.lookup hash).map (·.header)

/-- The head of the overlay, or else of the store. -/
def currentHead (i : Index) : Option Entry := i.mode.overlay.head.or i.store.head

/-- How many entries are known; one that is in the overlay and in the store counts twice. -/
def knownCount (i : Index) : Nat := i.store.size + i.mode.overlay.size

/-- Walks the overlay, and from the first header that is not in it the store. -/
def chainThrough (overlay : Overlay) (store : Store Entry VBlake) : VBlake → Nat → List Entry
  | _, 0 => []
  | hash, count + 1 =>
    match overlay.get hash with
    | none => store.chain hash (count + 1)
    | some e =>
      e :: if e.header.previousBlock.isZero then []
        else chainThrough overlay store e.header.previousBlock count

/-- At most `count` entries back from `hash`, newest first. -/
def chain (i : Index) (hash : VBlake) (count : Nat) : List Entry :=
  chainThrough i.mode.overlay i.store hash count

/-- Looks for `hash` at an entry and at most `steps` entries before it. -/
def searchFrom (i : Index) (hash : VBlake) : Nat → Entry → Option Entry
  | steps, e =>
    if hash.agrees e.hash then some e
    else if e.header.previousBlock.isZero then none
    else
      match steps, i.lookup e.header.previousBlock with
      | 0, _ | _, none => none
      | steps + 1, some previous => i.searchFrom hash steps previous

/-- Looks for `hash` on the best chain, which during speculation starts at the temporary head. -/
def searchBest (i : Index) (hash : VBlake) : Option Header :=
  let found :=
    if i.isSpeculating then i.currentHead.bind (i.searchFrom hash i.knownCount)
    else i.store.scanBest hash
  found.map (·.header)

end Index

end EndorsedChain
