import EndorsedChain.Entry.VeriBlock

/-!
# Speculation

While an index speculates, an overlay lies over its store. It holds headers that were added or
proven for the time being, and may have a head of its own. It is dropped as a whole.
-/

namespace EndorsedChain

open VeriBlock

structure Overlay where
  /-- At most one entry for each store key. -/
  entries : List Entry := []
  head : Option Entry := none
deriving DecidableEq, Repr

namespace Overlay

def empty : Overlay := {}

/-- Takes the place of the entry with the same store key, or the last place. -/
def putIn (entry : Entry) : List Entry → List Entry
  | [] => [entry]
  | e :: rest =>
    if e.hash.storeKey = entry.hash.storeKey then entry :: rest else e :: putIn entry rest

def put (o : Overlay) (entry : Entry) : Overlay := { o with entries := putIn entry o.entries }

def get (o : Overlay) (hash : VBlake) : Option Entry :=
  (o.entries.find? (·.hash.storeKey = hash.storeKey)).filter (hash.agrees ·.hash)

def setHead (o : Overlay) (head : Entry) : Overlay := { o with head := some head }

def size (o : Overlay) : Nat := o.entries.length

def isEmpty (o : Overlay) : Bool := o.entries.isEmpty && o.head.isNone

@[simp] theorem get_empty (hash : VBlake) : empty.get hash = none := rfl

@[simp] theorem head_put (o : Overlay) (entry : Entry) : (o.put entry).head = o.head := rfl

end Overlay

inductive Mode where
  | idle
  | speculating (overlay : Overlay)
deriving DecidableEq, Repr

namespace Mode

/-- An overlay without contents is no speculation. -/
def isSpeculating : Mode → Bool
  | .idle => false
  | .speculating overlay => !overlay.isEmpty

def overlay? : Mode → Option Overlay
  | .idle => none
  | .speculating overlay => some overlay

/-- The overlay to write to, a fresh one if there is none. -/
def overlay (m : Mode) : Overlay := m.overlay?.getD .empty

@[simp] theorem isSpeculating_idle : idle.isSpeculating = false := rfl

@[simp] theorem overlay_idle : idle.overlay = .empty := rfl

end Mode

end EndorsedChain
