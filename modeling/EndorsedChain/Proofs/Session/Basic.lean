import EndorsedChain.Index.Rewind
import EndorsedChain.Index.Speculate

/-!
# Sessions

A session is an index in use.  Its holder keeps the changes that mutations return, and rewinds the
most recent of them.  Bitcoin headers come and go from outside.
-/

namespace EndorsedChain

open VeriBlock

structure Session where
  index : Index
  /-- What mutations returned and was not rewound, the newest list first. -/
  journal : List (List Change) := []

inductive Call where
  | add (h : Header) (proof : Digest)
  | addAll (hs : List Header)
  | prove (h : Header) (proof : Digest)
  | addTemporarily (h : Header) (proof : Digest)
  | addAllTemporarily (hs : List Header)
  | proveTemporarily (h : Header) (proof : Digest)
  | clearTemporary
  /-- Rewinds the newest lists in one go, `count` of them. -/
  | rewind (count : Nat)
  | setBitcoin (bitcoin : Store Bitcoin.Entry Digest)

namespace Call

/-- The headers that are handed to the index. -/
def headers : Call → List Header
  | add h _ | prove h _ | addTemporarily h _ | proveTemporarily h _ => [h]
  | addAll hs | addAllTemporarily hs => hs
  | clearTemporary | rewind _ | setBitcoin _ => []

/-- Whether a call writes to the store and returns changes, if it is not about Bitcoin. -/
def isPersistent : Call → Bool
  | add .. | addAll _ | prove .. | setBitcoin _ => true
  | _ => false

end Call

/-- What a call answers, and the session after it. -/
structure Reply where
  result : Except Index.Error Unit
  session : Session

namespace Session

def start (params : NetworkParameters) : Session := ⟨{ params }, []⟩

/-- Keeps the changes that a mutation returned. A panic ends the session. -/
def keep (s : Session) : Index × Except Index.Fault (List Change) → Option Reply
  | (index, .ok changes) => some ⟨.ok (), ⟨index, changes :: s.journal⟩⟩
  | (index, .error (.rejected e)) => some ⟨.error e, { s with index }⟩
  | (_, .error .workTooWide) => none

/-- The answer to a temporary modification, which returns no changes. -/
def answer (s : Session) : Index × Except Index.Error Unit → Option Reply
  | (index, result) => some ⟨result, { s with index }⟩

/-- A failed `addAll` ends the session too: it has stored headers without returning changes. -/
def call (s : Session) : Call → Option Reply
  | .add h proof => s.keep (s.index.add h proof)
  | .addAll hs =>
    match s.index.addAll hs with
    | (index, .ok changes) => some ⟨.ok (), ⟨index, changes :: s.journal⟩⟩
    | (_, .error _) => none
  | .prove h proof => s.keep (s.index.prove h proof)
  | .addTemporarily h proof => s.answer (s.index.addTemporarily h proof)
  | .addAllTemporarily hs => s.answer (s.index.addAllTemporarily hs)
  | .proveTemporarily h proof => s.answer (s.index.proveTemporarily h proof, .ok ())
  | .clearTemporary => s.answer (s.index.clearTemporary, .ok ())
  | .rewind count =>
    match s.index.rewind (s.journal.take count).reverse.flatten with
    | (index, .ok ()) => some ⟨.ok (), ⟨index, s.journal.drop count⟩⟩
    | (index, .error e) => some ⟨.error e, { s with index }⟩
  | .setBitcoin bitcoin => s.answer ({ s.index with bitcoin }, .ok ())

def run (s : Session) : List Call → Option Session
  | [] => some s
  | c :: cs => (s.call c).bind (·.session.run cs)

/-- The replies to a run of calls. -/
def trace (s : Session) : List Call → Option (List Reply)
  | [] => some []
  | c :: cs => (s.call c).bind fun r => (r.session.trace cs).map (r :: ·)

end Session

end EndorsedChain
