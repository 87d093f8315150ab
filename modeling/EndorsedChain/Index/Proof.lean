import EndorsedChain.Index.Basic
import EndorsedChain.Journal.Edit

/-! # Attaching proofs -/

namespace EndorsedChain

open VeriBlock

/-- Whether a Bitcoin header is a better proof than the one an entry has: earlier on the best
Bitcoin chain. -/
def isBetterProof (bitcoin : Store Bitcoin.Entry Digest) (entry : Entry) (candidate : Digest) :
    Bool :=
  if entry.hasProof then
    match bitcoin.get candidate with
    | none => false
    | some candidate =>
      match bitcoin.scanBest entry.proof with
      | none => true
      | some incumbent => decide (candidate.height < incumbent.height)
  else true

/-- Attaches a proof to the entry that `hash` stands for, if it is a better one. The entry then
becomes the last of its bucket. -/
def attach (bitcoin : Store Bitcoin.Entry Digest) (proof : Digest) (store : Store Entry VBlake)
    (hash : VBlake) : Store Entry VBlake × List Edit :=
  if proof.isZero then (store, [])
  else
    match store.get hash with
    | none => (store, [])
    | some entry =>
      if isBetterProof bitcoin entry proof then
        let proven := { entry with proof }
        match store.remove entry.hash with
        | (none, _) => (store, [])
        | (some prior, rest) => (rest.put proven, [.setProof prior proven])
      else (store, [])

/-- Attaches a proof to several entries, one after the other. -/
def attachAll (bitcoin : Store Bitcoin.Entry Digest) (proof : Digest) :
    Store Entry VBlake → List VBlake → Store Entry VBlake × List Edit
  | store, [] => (store, [])
  | store, hash :: hashes =>
    let (store, edits) := attach bitcoin proof store hash
    let (store, more) := attachAll bitcoin proof store hashes
    (store, edits ++ more)

/-- The entries that a proof of a header counts for. -/
def VeriBlock.Header.proofTargets (h : Header) : List VBlake := h.hash :: h.provenKeystones

end EndorsedChain
