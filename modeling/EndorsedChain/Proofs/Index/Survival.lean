import EndorsedChain.Proofs.Index.Works

/-!
# Indexes that did not die

A living index is one that was reached without a call that dies.  Calls may have failed, and any
changes may have been rewound: whatever is read from a change can be packed again.  So all works
that a living index has stored can be packed, and attaching proofs never kills it.
-/

namespace EndorsedChain

open VeriBlock

theorem Change.restores_packable (c : Change) : c.Restores Packable :=
  fun _ _ hold ↦ packable_of_decodeEntry hold

namespace Index

variable {params : NetworkParameters} {i : Index}

/-- What becomes of a new index as long as no call dies. -/
inductive Alive (params : NetworkParameters) : Index → Prop
  | start : Alive params { params }
  | add {i : Index} (hi : Alive params i) (h : Header) (proof : Digest)
    (hlives : (i.add h proof).2 ≠ .error .workTooWide) : Alive params (i.add h proof).1
  | addAll {i : Index} (hi : Alive params i) (headers : List Header)
    (hlives : (i.addAll headers).2 ≠ .error .workTooWide) : Alive params (i.addAll headers).1
  | prove {i : Index} (hi : Alive params i) (h : Header) (proof : Digest) :
    Alive params (i.prove h proof).1
  | addTemporarily {i : Index} (hi : Alive params i) (h : Header) (proof : Digest) :
    Alive params (i.addTemporarily h proof).1
  | addAllTemporarily {i : Index} (hi : Alive params i) (headers : List Header) :
    Alive params (i.addAllTemporarily headers).1
  | proveTemporarily {i : Index} (hi : Alive params i) (h : Header) (proof : Digest) :
    Alive params (i.proveTemporarily h proof)
  | clearTemporary {i : Index} (hi : Alive params i) : Alive params i.clearTemporary
  | rewind {i : Index} (hi : Alive params i) (changes : List Change) :
    Alive params (i.rewind changes).1
  | setBitcoin {i : Index} (hi : Alive params i) (bitcoin : Store Bitcoin.Entry Digest) :
    Alive params { i with bitcoin }

theorem Alive.works (hi : Alive params i) : i.store.Works Packable := by
  induction hi with
  | start => exact Store.Works.empty
  | add _ h proof hlives ih =>
    exact (leaves_add ih fun hexceeds ↦ hlives ((add_eq_workTooWide_iff ih).mpr hexceeds)).store
  | addAll _ headers hlives ih =>
    exact
      (leaves_addAll ih fun hexceeds ↦ hlives ((addAll_eq_workTooWide_iff ih).mpr hexceeds)).store
  | prove _ h proof ih => exact (leaves_prove ih h proof).store
  | @addTemporarily i _ h proof ih => exact (i.store_addTemporarily h proof).symm ▸ ih
  | @addAllTemporarily i _ headers ih => exact (i.store_addAllTemporarily headers).symm ▸ ih
  | @proveTemporarily i _ h proof ih => exact (i.store_proveTemporarily h proof).symm ▸ ih
  | clearTemporary _ ih => exact ih
  | rewind _ changes ih => exact works_rewind ih fun c _ ↦ c.restores_packable
  | setBitcoin _ _ ih => exact ih

end Index

end EndorsedChain
