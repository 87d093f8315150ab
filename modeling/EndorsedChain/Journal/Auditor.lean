import EndorsedChain.Hash.Digest
import EndorsedChain.Journal.Change

/-!
# Changes by endorsed block

An auditor remembers which changes were made on behalf of which block of an endorsed chain. To
disconnect the block, its changes are taken back and undone.
-/

namespace EndorsedChain

structure AuditedChange where
  /-- The position of the change among all that were ever recorded. -/
  sequence : Nat
  change : Change
deriving DecidableEq, Repr

structure Auditor where
  journal : List (BlockIdentifier × List AuditedChange) := []
  /-- A counter of eight bytes is enough as long as fewer than 2^64 changes were ever recorded
  (`Auditor.sequences_lt_size`). -/
  nextSequence : Nat := 0
deriving DecidableEq, Repr

namespace Auditor

def empty : Auditor := {}

/-- Numbers changes from `first` on. -/
def number : Nat → List Change → List AuditedChange
  | _, [] => []
  | first, c :: cs => ⟨first, c⟩ :: number (first + 1) cs

/-- Appends to what is recorded for a block. -/
def append (block : BlockIdentifier) (added : List AuditedChange) :
    List (BlockIdentifier × List AuditedChange) → List (BlockIdentifier × List AuditedChange)
  | [] => [(block, added)]
  | (b, recorded) :: rest =>
    if b = block then (b, recorded ++ added) :: rest else (b, recorded) :: append block added rest

/-- A block counts as recorded even if no change is. -/
def record (a : Auditor) (block : BlockIdentifier) (changes : List Change) : Auditor where
  journal := append block (number a.nextSequence changes) a.journal
  nextSequence := a.nextSequence + changes.length

def changes (a : Auditor) (block : BlockIdentifier) : List AuditedChange :=
  (a.journal.lookup block).getD []

def contains (a : Auditor) (block : BlockIdentifier) : Bool := (a.journal.lookup block).isSome

/-- Forgets the changes of a block and returns them in the order in which they were made. -/
def take (a : Auditor) (block : BlockIdentifier) : List Change × Auditor :=
  ((a.changes block).map (·.change),
   { a with journal := a.journal.filter (·.1 ≠ block) })

/-- Sequence numbers go on where they were. -/
def clear (a : Auditor) : Auditor := { a with journal := [] }

@[simp] theorem length_number (first : Nat) (changes : List Change) :
    (number first changes).length = changes.length := by
  induction changes generalizing first with
  | nil => rfl
  | cons c cs ih => simp [number, ih]

@[simp] theorem changes_empty (block : BlockIdentifier) : empty.changes block = [] := rfl

@[simp] theorem changes_clear (a : Auditor) (block : BlockIdentifier) :
    a.clear.changes block = [] := rfl

end Auditor

end EndorsedChain
