import EndorsedChain.Index.Checks
import EndorsedChain.Index.Fork
import EndorsedChain.Index.Proof

/-!
# Mutations of the store

Each mutation returns the index after it, also when it fails, and the changes to journal.
-/

namespace EndorsedChain.Index

open VeriBlock

/-- Whether an admitted header becomes the head: there is none, it follows the head, or fork choice
prefers it. -/
def promotes (i : Index) (head : Option Entry) (a : Admission) : Bool :=
  match head with
  | none => true
  | some head => decide (some head.hash = a.parent?) || i.prefers head a.entry

/-- Stores an admitted header, proves its keystones and moves the head. -/
def commit (i : Index) (a : Admission) : Index × Except Error (List Edit) :=
  let (store, proven) :=
    attachAll i.bitcoin a.entry.proof (i.store.put a.entry) a.entry.header.provenKeystones
  let i := { i with store }
  if i.promotes store.head a then
    match store.setHead a.entry with
    | .error e => (i, .error (.store e))
    | .ok (prior, store) =>
      ({ i with store }, .ok (.addBlock a.entry :: proven ++ [.setHead prior a.entry]))
  else (i, .ok (.addBlock a.entry :: proven))

def addEdits (i : Index) (h : Header) (proof : Digest) : Index × Except Error (List Edit) :=
  if i.isSpeculating then (i, .error (.precondition .addBlock))
  else
    match i.accept i.store.head h proof with
    | .error e => (i, .error e)
    | .ok none => (i, .ok [])
    | .ok (some a) => i.commit a

def proveEdits (i : Index) (h : Header) (proof : Digest) : Index × Except Error (List Edit) :=
  if i.isSpeculating then (i, .error (.precondition .setProof))
  else
    let (store, edits) := attachAll i.bitcoin proof i.store h.proofTargets
    ({ i with store }, .ok edits)

/-- Packs the edits of a mutation. -/
def journal : Except Error (List Edit) → Except Fault (List Change)
  | .error e => .error (.rejected e)
  | .ok edits =>
    match edits.mapM Edit.toChange? with
    | none => .error .workTooWide
    | some changes => .ok changes

/-- Adds a header with a proof, `Digest.zero` for none. Nothing changes if it is known. -/
def add (i : Index) (h : Header) (proof : Digest) : Index × Except Fault (List Change) :=
  let (i, edits) := i.addEdits h proof
  (i, journal edits)

/-- Attaches a proof to a header and to its keystones. -/
def prove (i : Index) (h : Header) (proof : Digest) : Index × Except Fault (List Change) :=
  let (i, edits) := i.proveEdits h proof
  (i, journal edits)

/-- Adds headers up to the first that fails. -/
def addEach (i : Index) : List Header → Index × Except Fault (List Change)
  | [] => (i, .ok [])
  | h :: hs =>
    match i.add h .zero with
    | (i, .error f) => (i, .error f)
    | (i, .ok changes) =>
      let (i, more) := i.addEach hs
      (i, more.map (changes ++ ·))

/-- Adds headers in the order of their heights. What was added before a failure stays. -/
def addAll (i : Index) (hs : List Header) : Index × Except Fault (List Change) :=
  if i.isSpeculating then (i, .error (.rejected (.precondition .addBlocks)))
  else i.addEach (hs.mergeSort fun a b => decide (a.height ≤ b.height))

end EndorsedChain.Index
