import EndorsedChain.Difficulty.Compact
import EndorsedChain.Hash.VBlake
import EndorsedChain.Store.Basic

/-! # Why an index refuses an operation -/

namespace EndorsedChain

/-- A header that contradicts the known chain. -/
inductive VerificationError where
  | blockDoesNotFit (block previous : VBlake)
  | previousKeystoneNotFound (block keystone : VBlake)
  | secondPreviousKeystoneNotFound (block keystone : VBlake)
  | timestampTooOld (timestamp median : UInt32)
  | unexpectedDifficulty (expected found : UInt32)
deriving DecidableEq, Repr

def VerificationError.message : VerificationError → String
  | .blockDoesNotFit block previous =>
    s!"block {block} does not fit, previous block {previous} is unknown"
  | .previousKeystoneNotFound block keystone =>
    s!"previous keystone {keystone} of block {block} is not found"
  | .secondPreviousKeystoneNotFound block keystone =>
    s!"second previous keystone {keystone} of block {block} is not found"
  | .timestampTooOld timestamp median =>
    s!"block timestamp {timestamp} is not after the median time past {median}"
  | .unexpectedDifficulty expected found =>
    "block difficulty " ++ Compact.text found ++ " does not match the expected "
      ++ Compact.text expected

/-- Operations that are refused during speculation. -/
inductive Mutation where
  | addBlock
  | addBlocks
  | setProof
  | rewind
deriving DecidableEq, Repr

def Mutation.describe : Mutation → String
  | .addBlock => "add a block"
  | .addBlocks => "add blocks"
  | .setProof => "set a block of proof"
  | .rewind => "rewind changes"

namespace Index

inductive Error where
  | validation (cause : Compact.Error)
  | verification (cause : VerificationError)
  | store (cause : Store.Error)
  | precondition (mutation : Mutation)
  | codec (cause : ReadError)
deriving DecidableEq, Repr

def Error.message : Error → String
  | .validation _ => "invalid block header"
  | .verification _ => "block verification failed"
  | .store cause => cause.message
  | .precondition mutation =>
    "cannot " ++ mutation.describe ++ " while having temporary modifications"
  | .codec _ => "cannot decode the block of a change"

/-- How a mutation fails: it is rejected, or its changes have no packed form. -/
inductive Fault where
  | rejected (error : Error)
  | workTooWide
deriving DecidableEq, Repr

end Index

end EndorsedChain
