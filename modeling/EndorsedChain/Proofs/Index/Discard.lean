import EndorsedChain.Index.Rewind
import EndorsedChain.Proofs.Index.Search
import EndorsedChain.Proofs.Index.Temporary
import EndorsedChain.Proofs.Sample.Openings

/-!
# Dropping a speculation

Temporary modifications write to nothing but the mode of an index, and as long as there are some the
index refuses every mutation.  So whatever is attempted until they are dropped, the index is then
what it was before the first of them.
-/

namespace EndorsedChain

open VeriBlock

/-- What may be asked of an index during a speculation: a temporary modification, or a mutation. -/
inductive Attempt where
  | addTemporarily (h : Header) (proof : Digest)
  | addAllTemporarily (hs : List Header)
  | proveTemporarily (h : Header) (proof : Digest)
  | clearTemporary
  | add (h : Header) (proof : Digest)
  | addAll (hs : List Header)
  | prove (h : Header) (proof : Digest)
  | rewind (changes : List Change)
deriving DecidableEq, Repr

/-- The mutation that is attempted, if it is one. -/
def Attempt.mutation? : Attempt → Option Mutation
  | addTemporarily .. | addAllTemporarily _ | proveTemporarily .. | clearTemporary => none
  | add .. => some .addBlock
  | addAll _ => some .addBlocks
  | prove .. => some .setProof
  | rewind _ => some .rewind

namespace Index

/-- The index after an attempt, and the answer to it without the changes. -/
def attempt (i : Index) : Attempt → Index × Except Fault Unit
  | .addTemporarily h proof => (i.addTemporarily h proof).map id (·.mapError .rejected)
  | .addAllTemporarily hs => (i.addAllTemporarily hs).map id (·.mapError .rejected)
  | .proveTemporarily h proof => (i.proveTemporarily h proof, .ok ())
  | .clearTemporary => (i.clearTemporary, .ok ())
  | .add h proof => (i.add h proof).map id (·.map fun _ ↦ ())
  | .addAll hs => (i.addAll hs).map id (·.map fun _ ↦ ())
  | .prove h proof => (i.prove h proof).map id (·.map fun _ ↦ ())
  | .rewind changes => (i.rewind changes).map id (·.mapError .rejected)

/-- An attempt with the index before and after it and the answer to it. -/
structure Attempted where
  before : Index
  attempt : Attempt
  result : Except Fault Unit
  after : Index

/-- What happens in a sequence of attempts. -/
def attempted (i : Index) : List Attempt → List Attempted
  | [] => []
  | a :: rest =>
    let (j, result) := i.attempt a
    ⟨i, a, result, j⟩ :: j.attempted rest

/-- The index after a sequence of attempts. -/
def attemptAll (i : Index) (attempts : List Attempt) : Index :=
  attempts.foldl (fun i a ↦ (i.attempt a).1) i

/-- A mutation is attempted only while there are temporary modifications. -/
def Attempted.WhilePending (r : Attempted) : Prop :=
  r.attempt.mutation?.isSome = true → r.before.isSpeculating = true

instance (r : Attempted) : Decidable r.WhilePending :=
  inferInstanceAs (Decidable (_ → _))

variable {i : Index} {a : Attempt} {m : Mutation} {attempts : List Attempt} {r : Attempted}

/-! ## One attempt -/

theorem attempt_of_speculating (hspeculating : i.isSpeculating = true)
    (hmutation : a.mutation? = some m) :
    i.attempt a = (i, .error (.rejected (.precondition m))) := by
  cases a with
  | addTemporarily | addAllTemporarily | proveTemporarily | clearTemporary => cases hmutation
  | add h proof =>
    cases hmutation
    rw [attempt, add, addEdits, if_pos hspeculating]
    rfl
  | addAll hs =>
    cases hmutation
    rw [attempt, addAll, if_pos hspeculating]
    rfl
  | prove h proof =>
    cases hmutation
    rw [attempt, prove, proveEdits, if_pos hspeculating]
    rfl
  | rewind changes =>
    cases hmutation
    rw [attempt, rewind, if_pos hspeculating]
    rfl

theorem clearTemporary_attempt (hpending : a.mutation?.isSome = true → i.isSpeculating = true) :
    (i.attempt a).1.clearTemporary = i.clearTemporary := by
  cases hmutation : a.mutation? with
  | some m =>
    rw [hmutation] at hpending
    rw [attempt_of_speculating (hpending rfl) hmutation]
  | none =>
    cases a with
    | addTemporarily h proof => exact i.clearTemporary_addTemporarily h proof
    | addAllTemporarily hs => exact i.clearTemporary_addAllTemporarily hs
    | proveTemporarily h proof => exact i.clearTemporary_proveTemporarily h proof
    | clearTemporary => rfl
    | add | addAll | prove | rewind => cases hmutation

/-! ## Sequences of attempts -/

theorem clearTemporary_attemptAll (hpending : ∀ r ∈ i.attempted attempts, r.WhilePending) :
    (i.attemptAll attempts).clearTemporary = i.clearTemporary := by
  induction attempts generalizing i with
  | nil => rfl
  | cons a rest ih =>
    rw [attempted, List.forall_mem_cons] at hpending
    exact (ih hpending.2).trans (clearTemporary_attempt hpending.1)

theorem clearTemporary_attempted (hpending : ∀ r ∈ i.attempted attempts, r.WhilePending)
    (hr : r ∈ i.attempted attempts) :
    r.after.clearTemporary = i.clearTemporary ∧
      r.before.attempt r.attempt = (r.after, r.result) := by
  induction attempts generalizing i with
  | nil => cases hr
  | cons a rest ih =>
    rw [attempted, List.forall_mem_cons] at hpending
    have hclear := clearTemporary_attempt hpending.1
    rcases List.mem_cons.mp hr with rfl | hr
    · exact ⟨hclear, rfl⟩
    · obtain ⟨hafter, hattempt⟩ := ih hpending.2 hr
      exact ⟨hafter.trans hclear, hattempt⟩

/-! ## Reads -/

theorem lookup_clearTemporary (hidle : i.isSpeculating = false) (hash : VBlake) :
    i.clearTemporary.lookup hash = i.lookup hash := by
  rw [lookup_of_idle hidle]
  exact lookup_of_idle rfl hash

theorem searchBest_clearTemporary (hidle : i.isSpeculating = false) (hash : VBlake) :
    i.clearTemporary.searchBest hash = i.searchBest hash := by
  unfold searchBest
  rw [hidle]
  rfl

/-- A speculation leaves no trace.  Mutations that are attempted meanwhile are refused, both stores
stay as they are, and once it is dropped all is found as before. -/
theorem speculation_leaves_no_trace {i : Index} {attempts : List Attempt}
    (hidle : i.isSpeculating = false)
    (hpending : ∀ r ∈ i.attempted attempts, r.WhilePending) :
    (∀ r ∈ i.attempted attempts,
      (∀ m, r.attempt.mutation? = some m → r.result = .error (.rejected (.precondition m))) ∧
        r.after.store = i.store ∧ r.after.bitcoin = i.bitcoin) ∧
      (i.attemptAll attempts).clearTemporary.store.head = i.store.head ∧
      ∀ hash, (i.attemptAll attempts).clearTemporary.lookup hash = i.lookup hash ∧
        (i.attemptAll attempts).clearTemporary.searchBest hash = i.searchBest hash := by
  refine ⟨fun r hr ↦ ⟨fun m hmutation ↦ ?_, ?_⟩, ?_⟩
  · have hspeculating := hpending r hr (Option.isSome_of_eq_some hmutation)
    have hattempt := (clearTemporary_attempted hpending hr).2
    rw [attempt_of_speculating hspeculating hmutation] at hattempt
    exact (congrArg Prod.snd hattempt).symm
  · have hclear := (clearTemporary_attempted hpending hr).1
    exact ⟨store_eq_of_clearTemporary hclear, bitcoin_eq_of_clearTemporary hclear⟩
  · rw [clearTemporary_attemptAll hpending]
    exact ⟨rfl, fun hash ↦ ⟨lookup_clearTemporary hidle hash, searchBest_clearTemporary hidle hash⟩⟩

open Sample in
/-- The third header does not fit before the second one is added for the time being.  Then it is
the temporary head, and no mutation gets through; afterwards it is unknown again. -/
theorem third_leaves_no_trace :
    let i := (({ params := .testnet } : Index).add genesis .zero).1
    let attempts := [.addTemporarily third .zero, .addTemporarily second .zero, .add twin .zero,
      .addAll [], .proveTemporarily genesis (.sha256 []), .prove genesis (.sha256 []),
      .rewind [], .addAllTemporarily [third, twin]]
    (∀ r ∈ i.attempted attempts, r.WhilePending) ∧
      (i.attemptAll attempts).searchBest third.hash = some third ∧
      (i.attemptAll attempts).clearTemporary.searchBest third.hash = none ∧
      ∀ r ∈ i.attempted attempts, ∀ m, r.attempt.mutation? = some m →
        r.result = .error (.rejected (.precondition m)) := by
  intro i attempts
  have hidle : i.isSpeculating = false := by decide +kernel
  have hpending : ∀ r ∈ i.attempted attempts, r.WhilePending := by decide +kernel
  have hthird : (i.attemptAll attempts).searchBest third.hash = some third := by decide +kernel
  have hunknown : i.searchBest third.hash = none := by decide +kernel
  obtain ⟨hrefused, -, hreads⟩ := speculation_leaves_no_trace hidle hpending
  exact ⟨hpending, hthird, (hreads third.hash).2.trans hunknown, fun r hr ↦ (hrefused r hr).1⟩

end Index

end EndorsedChain
