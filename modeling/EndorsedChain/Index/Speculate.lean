import EndorsedChain.Index.Add

/-! # Temporary modifications, kept in the overlay alone -/

namespace EndorsedChain.Index

open VeriBlock

def putTemporarily (i : Index) (entry : Entry) : Index :=
  { i with mode := .speculating (i.mode.overlay.put entry) }

def setHeadTemporarily (i : Index) (head : Entry) : Index :=
  { i with mode := .speculating (i.mode.overlay.setHead head) }

def attachTemporarily (i : Index) (proof : Digest) (hash : VBlake) : Index :=
  if proof.isZero then i
  else
    match i.lookup hash with
    | none => i
    | some entry =>
      if isBetterProof i.bitcoin entry proof then i.putTemporarily { entry with proof } else i

def attachAllTemporarily (i : Index) (proof : Digest) (hashes : List VBlake) : Index :=
  hashes.foldl (attachTemporarily · proof) i

def commitTemporarily (i : Index) (a : Admission) : Index :=
  let i := (i.putTemporarily a.entry).attachAllTemporarily a.entry.proof
    a.entry.header.provenKeystones
  if i.promotes i.currentHead a then i.setHeadTemporarily a.entry else i

def addTemporarily (i : Index) (h : Header) (proof : Digest) : Index × Except Error Unit :=
  match i.accept i.currentHead h proof with
  | .error e => (i, .error e)
  | .ok none => (i, .ok ())
  | .ok (some a) => (i.commitTemporarily a, .ok ())

/-- Adds headers in the given order, up to the first that fails. -/
def addAllTemporarily (i : Index) : List Header → Index × Except Error Unit
  | [] => (i, .ok ())
  | h :: hs =>
    match i.addTemporarily h .zero with
    | (i, .error e) => (i, .error e)
    | (i, .ok ()) => i.addAllTemporarily hs

def proveTemporarily (i : Index) (h : Header) (proof : Digest) : Index :=
  i.attachAllTemporarily proof h.proofTargets

/-- Drops all temporary modifications. -/
def clearTemporary (i : Index) : Index := { i with mode := .idle }

@[simp] theorem store_putTemporarily (i : Index) (entry : Entry) :
    (i.putTemporarily entry).store = i.store := rfl

@[simp] theorem store_setHeadTemporarily (i : Index) (head : Entry) :
    (i.setHeadTemporarily head).store = i.store := rfl

@[simp] theorem store_clearTemporary (i : Index) : i.clearTemporary.store = i.store := rfl

end EndorsedChain.Index
