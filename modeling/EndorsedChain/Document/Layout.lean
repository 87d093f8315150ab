import EndorsedChain.Reward.Decimal

/-!
# Layouts of records

A layout names the fields of a record in the order in which they are written.
-/

namespace EndorsedChain

/-- A part of a record: what it holds, how it is read off and how it is replaced. -/
inductive Field (σ : Type) where
  /-- A number of so many bits. -/
  | nat (bits : Nat) (get : σ → Nat) (set : σ → Nat → σ)
  | optionalNat (bits : Nat) (get : σ → Option Nat) (set : σ → Option Nat → σ)
  | flag (get : σ → Bool) (set : σ → Bool → σ)
  | decimal (get : σ → Decimal) (set : σ → Decimal → σ)
  | decimals (get : σ → List Decimal) (set : σ → List Decimal → σ)

/-- A field of a part is a field of the whole. -/
def Field.within {σ τ : Type} (part : τ → σ) (replace : τ → σ → τ) : Field σ → Field τ
  | .nat bits get set => .nat bits (get ∘ part) fun t v => replace t (set (part t) v)
  | .optionalNat bits get set =>
    .optionalNat bits (get ∘ part) fun t v => replace t (set (part t) v)
  | .flag get set => .flag (get ∘ part) fun t v => replace t (set (part t) v)
  | .decimal get set => .decimal (get ∘ part) fun t v => replace t (set (part t) v)
  | .decimals get set => .decimals (get ∘ part) fun t v => replace t (set (part t) v)

structure Layout (σ : Type) where
  fields : List (String × Field σ)
  /-- Records within the record. They come after its own fields. -/
  groups : List (String × List (String × Field σ)) := []
  /-- What a document has to give; all else has a standard value. -/
  required : List String := []

end EndorsedChain
