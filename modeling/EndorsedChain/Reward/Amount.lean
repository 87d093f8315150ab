import EndorsedChain.Bytes.Reader

/-! # Amounts of the endorsed chain's currency -/

namespace EndorsedChain

/-- An amount in the smallest unit of the currency. -/
structure Amount where
  units : UInt64
deriving DecidableEq, Repr

namespace Amount

inductive Error where
  | overflow
deriving DecidableEq, Repr

def Error.message : Error → String
  | .overflow => "reward amount overflow"

def zero : Amount := ⟨0⟩

def add (a b : Amount) : Except Error Amount :=
  if a.units.toNat + b.units.toNat < UInt64.size then .ok ⟨a.units + b.units⟩ else .error .overflow

def sum (amounts : List Amount) : Except Error Amount := amounts.foldlM add zero

instance : LE Amount := ⟨fun a b => a.units ≤ b.units⟩

instance : LT Amount := ⟨fun a b => a.units < b.units⟩

instance (a b : Amount) : Decidable (a ≤ b) := inferInstanceAs (Decidable (a.units ≤ b.units))

instance (a b : Amount) : Decidable (a < b) := inferInstanceAs (Decidable (a.units < b.units))

instance : ToString Amount := ⟨fun a => toString a.units⟩

def pack (a : Amount) : List UInt8 := BigEndian.u64 a.units

def read : Reader Amount := return ⟨← Reader.u64⟩

theorem toNat_add {a b c : Amount} (h : a.add b = .ok c) :
    c.units.toNat = a.units.toNat + b.units.toNat := by
  unfold add at h
  split at h
  · cases h
    simp [UInt64.toNat_add]
    omega
  · cases h

end Amount

end EndorsedChain
