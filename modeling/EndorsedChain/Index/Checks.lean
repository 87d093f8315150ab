import EndorsedChain.Difficulty.Retarget
import EndorsedChain.Index.Basic

/-!
# Checks against the known chain

The context of a header is the chain up to the header before it, newest first. A check that needs
more context than is known passes.
-/

namespace EndorsedChain

open VeriBlock

/-- How many headers the median time past is taken over. -/
def medianWindow : Nat := 20

/-- The timestamps of the highest headers of a context in increasing order. -/
def recentTimestamps (context : List Entry) : List UInt32 :=
  let highest := (context.mergeSort fun a b => decide (b.height ≤ a.height)).take medianWindow
  (highest.map (·.header.timestamp)).mergeSort fun a b => decide (a ≤ b)

def medianTimePast (context : List Entry) : UInt32 :=
  (recentTimestamps context).getD (medianWindow / 2 - 1) 0

def checkTimestamp (header : Header) (context : List Entry) : Except VerificationError Unit :=
  if context.length < medianWindow then .ok ()
  else
    let median := medianTimePast context
    if header.timestamp ≤ median then .error (.timestampTooOld header.timestamp median)
    else .ok ()

def checkDifficulty (params : NetworkParameters) (header : Header) (context : List Entry) :
    Except Index.Error Unit :=
  if context.length < Retarget.period then .ok ()
  else do
    let next ← (Retarget.next params ((context.take Retarget.period).map (·.header))).mapError
      .validation
    let expected := Compact.encode next
    if header.difficulty ≠ expected then
      .error (.verification (.unexpectedDifficulty expected header.difficulty))
    else .ok ()

/-- How many headers before its predecessor the previous keystone of a header lies, at most. -/
def VeriBlock.Header.keystoneDistance (h : Header) : Nat :=
  match h.roundIndex with
  | 0 => keystoneInterval
  | 1 => keystoneInterval + 1
  | index => index

namespace Index

/-- Whether the chain before a header is known for `count` headers. -/
def knowsAgo (i : Index) (h : Header) (count : Nat) : Bool :=
  (i.chain h.previousBlock count).length == count

/-- Finds the header before. The keystones must be known too, unless the known chain is too short
to tell. -/
def checkConnectivity (i : Index) (h : Header) : Except VerificationError Entry :=
  match i.lookup h.previousBlock with
  | none => .error (.blockDoesNotFit h.hash h.previousBlock)
  | some previous =>
    if (i.lookup h.previousKeystone).isNone && i.knowsAgo h h.keystoneDistance then
      .error (.previousKeystoneNotFound h.hash h.previousKeystone)
    else if (i.lookup h.secondPreviousKeystone).isNone
        && i.knowsAgo h (h.keystoneDistance + keystoneInterval) then
      .error (.secondPreviousKeystoneNotFound h.hash h.secondPreviousKeystone)
    else .ok previous

def checkContext (i : Index) (h : Header) : Except Error Unit := do
  let context := i.chain h.previousBlock Retarget.period
  (checkTimestamp h context).mapError .verification
  checkDifficulty i.params h context

/-- A header that passed all checks. -/
structure Admission where
  entry : Entry
  /-- The hash of the header before it, unless the index had no head. -/
  parent? : Option VBlake
deriving DecidableEq, Repr

/-- Checks a header and finds its work. Without a head any valid header is admitted; one that is
known already is not admitted again. -/
def accept (i : Index) (head : Option Entry) (h : Header) (proof : Digest) :
    Except Error (Option Admission) := do
  let work ← h.work.mapError .validation
  match head with
  | none => return some ⟨⟨h, work, proof⟩, none⟩
  | some _ =>
    if (i.lookup h.hash).isSome then return none
    let previous ← (i.checkConnectivity h).mapError .verification
    i.checkContext h
    return some ⟨⟨h, previous.work + work, proof⟩, some previous.hash⟩

end Index

end EndorsedChain
