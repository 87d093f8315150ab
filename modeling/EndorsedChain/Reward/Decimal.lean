/-!
# Decimal numbers with eight places

Every operation that loses precision rounds toward negative infinity.
-/

namespace EndorsedChain

/-- A number counted in units of 10⁻⁸. -/
structure Decimal where
  units : Int
deriving DecidableEq, Repr

namespace Decimal

/-- How many units make one. -/
def scale : Int := 100000000

/-- The quotient of two integers, rounded down. `tdiv` rounds toward zero instead, which is one too
high if it leaves a remainder and the sign of the remainder is not the one of the divisor. -/
def floorDiv (n d : Int) : Int :=
  if n.tmod d ≠ 0 ∧ ¬(n.tmod d < 0 ↔ d < 0) then n.tdiv d - 1 else n.tdiv d

def zero : Decimal := ⟨0⟩

def one : Decimal := ⟨scale⟩

def ofInt (n : Int) : Decimal := ⟨n * scale⟩

def ofNat (n : Nat) : Decimal := ofInt n

instance : Inhabited Decimal := ⟨zero⟩

def isZero (a : Decimal) : Bool := a.units == 0

def isNegative (a : Decimal) : Bool := decide (a.units < 0)

instance : Add Decimal := ⟨fun a b => ⟨a.units + b.units⟩⟩

instance : Sub Decimal := ⟨fun a b => ⟨a.units - b.units⟩⟩

instance : Mul Decimal := ⟨fun a b => ⟨floorDiv (a.units * b.units) scale⟩⟩

instance : LE Decimal := ⟨fun a b => a.units ≤ b.units⟩

instance : LT Decimal := ⟨fun a b => a.units < b.units⟩

instance (a b : Decimal) : Decidable (a ≤ b) := inferInstanceAs (Decidable (a.units ≤ b.units))

instance (a b : Decimal) : Decidable (a < b) := inferInstanceAs (Decidable (a.units < b.units))

instance : Ord Decimal := ⟨fun a b => compare a.units b.units⟩

instance : Max Decimal := ⟨fun a b => ⟨max a.units b.units⟩⟩

instance : Min Decimal := ⟨fun a b => ⟨min a.units b.units⟩⟩

/-- There is no quotient by zero. -/
def div? (a b : Decimal) : Option Decimal :=
  if b.isZero then none else some ⟨floorDiv (a.units * scale) b.units⟩

/-- The largest integer that is not above the number. -/
def floor (a : Decimal) : Int := floorDiv a.units scale

/-- The floor, if it is no negative number and fits 64 bits. -/
def toUInt64? (a : Decimal) : Option UInt64 :=
  let n := a.floor
  if 0 ≤ n ∧ n < UInt64.size then some (UInt64.ofNat n.toNat) else none

/-! ## Text -/

def digitValue (c : Char) : Nat := c.toNat - 48

def digitsValue (cs : List Char) : Nat := cs.foldl (fun n c => 10 * n + digitValue c) 0

/-- The units of a number without sign, given by its digits before and after the point. Digits
after the eighth place are dropped. -/
def unitsOfDigits (integer fraction : List Char) : Nat :=
  digitsValue (integer ++ (fraction ++ List.replicate 8 '0').take 8)

/-- Reads digits with an optional point among them. The flag asks to round up if digits that are
not zero were dropped. -/
def parseUnsigned? (up : Bool) (cs : List Char) : Option Nat :=
  let integer := cs.takeWhile (· ≠ '.')
  let fraction := (cs.dropWhile (· ≠ '.')).drop 1
  if integer.isEmpty && fraction.isEmpty then none
  else if integer.all Char.isDigit && fraction.all Char.isDigit then
    let units := unitsOfDigits integer fraction
    some (if up && (fraction.drop 8).any (· ≠ '0') then units + 1 else units)
  else none

def parseChars? : List Char → Option Decimal
  | '-' :: cs => (parseUnsigned? true cs).map fun n => ⟨-n⟩
  | cs => (parseUnsigned? false cs).map fun n => ⟨n⟩

structure ParseError where
  text : String
deriving DecidableEq, Repr

def ParseError.message (e : ParseError) : String := "invalid decimal number `" ++ e.text ++ "'"

/-- Reads `[-]digits[.digits]`, rounding down to eight places. -/
def parse (text : String) : Except ParseError Decimal :=
  match parseChars? text.toList with
  | some a => .ok a
  | none => .error ⟨text⟩

/-- The eight places of a number of units below one, without the zeros at the end. -/
def fractionDigits (units : Nat) : List Char :=
  let digits := Nat.toDigits 10 units
  ((List.replicate (8 - digits.length) '0' ++ digits).reverse.dropWhile (· = '0')).reverse

def render (a : Decimal) : List Char :=
  let magnitude := a.units.natAbs
  let fraction := magnitude % scale.toNat
  let digits := Nat.toDigits 10 (magnitude / scale.toNat)
    ++ (if fraction = 0 then [] else '.' :: fractionDigits fraction)
  if a.units < 0 then '-' :: digits else digits

instance : ToString Decimal := ⟨fun a => String.ofList a.render⟩

/-- The number with the name of its type. -/
def describe (a : Decimal) : String := "Decimal(" ++ toString a ++ ")"

@[simp] theorem zero_floorDiv (d : Int) : floorDiv 0 d = 0 := by simp [floorDiv]

theorem floorDiv_eq_fdiv (n : Int) {d : Int} (hd : d ≠ 0) : floorDiv n d = n.fdiv d := by
  have hsign := Int.sign_tmod n d
  rw [floorDiv, Int.fdiv_eq_tdiv]
  by_cases hdvd : d ∣ n
  · rw [if_pos hdvd, Int.sign_eq_zero_iff_zero] at hsign
    simp [hdvd, hsign]
  · rw [if_neg hdvd] at hsign ⊢
    -- a remainder has the sign of the dividend
    have hremainder : n.tmod d ≠ 0 := fun hzero => hdvd (Int.dvd_of_tmod_eq_zero hzero)
    have hneg : n.tmod d < 0 ↔ ¬0 ≤ n := by
      rw [← Int.sign_eq_neg_one_iff_neg, hsign, Int.sign_eq_neg_one_iff_neg, Int.not_le]
    rcases Int.lt_or_gt_of_ne hd with hlt | hgt
    · have hd' : ¬0 ≤ d := Int.not_le.mpr hlt
      by_cases hn : 0 ≤ n <;> simp [hremainder, hneg, hn, hlt, hd', Int.sign_eq_neg_one_of_neg]
    · have hd' : ¬d < 0 := Int.lt_asymm hgt
      by_cases hn : 0 ≤ n <;>
        simp [hremainder, hneg, hn, hd', Int.le_of_lt hgt, Int.sign_eq_one_of_pos hgt]

@[simp] theorem units_add (a b : Decimal) : (a + b).units = a.units + b.units := rfl

@[simp] theorem units_sub (a b : Decimal) : (a - b).units = a.units - b.units := rfl

@[simp] theorem units_mul (a b : Decimal) : (a * b).units = (a.units * b.units).fdiv scale :=
  floorDiv_eq_fdiv _ (by decide)

theorem floor_eq_fdiv (a : Decimal) : a.floor = a.units.fdiv scale :=
  floorDiv_eq_fdiv _ (by decide)

@[simp] theorem units_zero : zero.units = 0 := rfl

theorem le_iff (a b : Decimal) : a ≤ b ↔ a.units ≤ b.units := Iff.rfl

theorem lt_iff (a b : Decimal) : a < b ↔ a.units < b.units := Iff.rfl

end Decimal

end EndorsedChain
