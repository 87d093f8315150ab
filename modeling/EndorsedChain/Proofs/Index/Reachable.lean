import EndorsedChain.Index.Rewind
import EndorsedChain.Proofs.Index.Temporary

/-!
# Reachable indexes

Whatever calls are made, whether they succeed or not, and whatever changes are rewound, the store
of an index stays keyed.
-/

namespace EndorsedChain

open VeriBlock

variable {s : Store Entry VBlake}

theorem keyed_undo (hs : s.Keyed) (c : Change) : (undo s c).1.Keyed := by
  unfold undo
  split
  · exact hs
  · split
    · exact hs
    · dsimp only
      split
      · exact hs.remove _
      · split
        · exact hs.remove _
        · exact (hs.remove _).put _
  · split
    · exact hs
    · split
      · exact hs.congr rfl
      · split
        · exact hs
        · rename_i hset
          exact hs.setHead hset
  · split
    · exact hs
    · exact (hs.remove _).put _

theorem keyed_undoEach (hs : s.Keyed) (cs : List Change) : (undoEach s cs).1.Keyed := by
  induction cs generalizing s with
  | nil => exact hs
  | cons c cs ih =>
    have hc := keyed_undo hs c
    unfold undoEach
    split
    · rename_i hundo
      rwa [hundo] at hc
    · rename_i hundo
      rw [hundo] at hc
      exact ih hc

namespace Index

variable {params : NetworkParameters} {i : Index} {h : Header} {proof : Digest}

theorem keyed_commit (hs : i.store.Keyed) (a : Admission) : (i.commit a).1.store.Keyed := by
  have hattached := (proves_attachAdmitted hs a).keyed (hs.put a.entry)
  rw [commit_eq]
  split
  · exact hattached.congr rfl
  · exact hattached

theorem keyed_add (hs : i.store.Keyed) (h : Header) (proof : Digest) :
    (i.add h proof).1.store.Keyed := by
  change (i.addEdits h proof).1.store.Keyed
  rcases i.addEdits_cases h proof with ⟨e, hadd⟩ | hadd | ⟨a, -, -, hadd⟩
  · rwa [hadd]
  · rwa [hadd]
  · rw [hadd]
    exact keyed_commit hs a

theorem keyed_addEach (hs : i.store.Keyed) (headers : List Header) :
    (i.addEach headers).1.store.Keyed := by
  induction headers generalizing i with
  | nil => exact hs
  | cons h headers ih =>
    have hadd := keyed_add hs h .zero
    unfold addEach
    split
    · rename_i hfail
      rwa [hfail] at hadd
    · rename_i hok
      rw [hok] at hadd
      exact ih hadd

theorem keyed_prove (hs : i.store.Keyed) (h : Header) (proof : Digest) :
    (i.prove h proof).1.store.Keyed := by
  change (i.proveEdits h proof).1.store.Keyed
  unfold proveEdits
  split
  · exact hs
  · exact (proves_attachAll i.bitcoin proof hs h.proofTargets).keyed hs

/-- What becomes of a new index.  Calls may fail, and any changes may be given to `rewind`. -/
inductive Reachable (params : NetworkParameters) : Index → Prop
  | start : Reachable params { params }
  | add {i : Index} (hi : Reachable params i) (h : Header) (proof : Digest) :
    Reachable params (i.add h proof).1
  | addAll {i : Index} (hi : Reachable params i) (headers : List Header) :
    Reachable params (i.addAll headers).1
  | prove {i : Index} (hi : Reachable params i) (h : Header) (proof : Digest) :
    Reachable params (i.prove h proof).1
  | addTemporarily {i : Index} (hi : Reachable params i) (h : Header) (proof : Digest) :
    Reachable params (i.addTemporarily h proof).1
  | addAllTemporarily {i : Index} (hi : Reachable params i) (headers : List Header) :
    Reachable params (i.addAllTemporarily headers).1
  | proveTemporarily {i : Index} (hi : Reachable params i) (h : Header) (proof : Digest) :
    Reachable params (i.proveTemporarily h proof)
  | clearTemporary {i : Index} (hi : Reachable params i) : Reachable params i.clearTemporary
  | rewind {i : Index} (hi : Reachable params i) (changes : List Change) :
    Reachable params (i.rewind changes).1
  | setBitcoin {i : Index} (hi : Reachable params i) (bitcoin : Store Bitcoin.Entry Digest) :
    Reachable params { i with bitcoin }

theorem Reachable.keyed (hi : Reachable params i) : i.store.Keyed := by
  induction hi with
  | start => exact Store.Keyed.empty
  | add _ h proof ih => exact keyed_add ih h proof
  | @addAll i _ headers ih =>
    unfold Index.addAll
    split
    · exact ih
    · exact keyed_addEach ih _
  | prove _ h proof ih => exact keyed_prove ih h proof
  | @addTemporarily i _ h proof ih => exact (i.store_addTemporarily h proof).symm ▸ ih
  | @addAllTemporarily i _ headers ih => exact (i.store_addAllTemporarily headers).symm ▸ ih
  | @proveTemporarily i _ h proof ih => exact (i.store_proveTemporarily h proof).symm ▸ ih
  | clearTemporary _ ih => exact ih
  | @rewind i _ changes ih =>
    unfold Index.rewind
    split
    · exact ih
    · exact keyed_undoEach ih changes.reverse
  | setBitcoin _ _ ih => exact ih

end Index

end EndorsedChain
