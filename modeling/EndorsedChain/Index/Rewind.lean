import EndorsedChain.Index.Add

/-! # Undoing journaled changes -/

namespace EndorsedChain

open VeriBlock

def decodeEntry (bytes : List UInt8) : Except Index.Error Entry :=
  (Entry.read.readAll bytes).mapError .codec

/-- Undoes one change. The store comes back also when the change cannot be undone, with what was
done up to there. Changes of other chains are skipped. -/
def undo (store : Store Entry VBlake) (c : Change) : Store Entry VBlake × Except Index.Error Unit :=
  match c.chain, c.operation with
  | .bitcoin, _ => (store, .ok ())
  | .veriBlock, .addBlock =>
    match decodeEntry c.newValue with
    | .error e => (store, .error e)
    | .ok added =>
      let rest := (store.remove added.hash).2
      if c.oldValue.isEmpty then (rest, .ok ())
      else
        match decodeEntry c.oldValue with
        | .error e => (rest, .error e)
        | .ok old => (rest.put old, .ok ())
  | .veriBlock, .setHead =>
    match decodeEntry c.oldValue with
    | .error e => (store, .error e)
    | .ok prior =>
      if prior = Edit.placeholder then (store.unsetHead.2, .ok ())
      else
        match store.setHead prior with
        | .error e => (store, .error (.store e))
        | .ok (_, moved) => (moved, .ok ())
  | .veriBlock, .setProof =>
    match decodeEntry c.oldValue with
    | .error e => (store, .error e)
    | .ok prior => ((store.remove prior.hash).2.put prior, .ok ())

/-- Undoes changes in the given order, up to the first that fails. -/
def undoEach (store : Store Entry VBlake) :
    List Change → Store Entry VBlake × Except Index.Error Unit
  | [] => (store, .ok ())
  | c :: cs =>
    match undo store c with
    | (store, .error e) => (store, .error e)
    | (store, .ok ()) => undoEach store cs

/-- Undoes the changes of one or several mutations, the last one first. -/
def Index.rewind (i : Index) (changes : List Change) : Index × Except Index.Error Unit :=
  if i.isSpeculating then (i, .error (.precondition .rewind))
  else
    let (store, result) := undoEach i.store changes.reverse
    ({ i with store }, result)

end EndorsedChain
