/-!
# Decimal numbers in double precision

A number is rounded to the nearest double, and a double is written with the fewest digits that are
rounded to it. All arithmetic is exact.
-/

namespace EndorsedChain

/-- The finite double `mantissa * 2 ^ exponent`, without its sign. -/
structure Binary64 where
  mantissa : Nat
  exponent : Int
deriving DecidableEq, Repr

/-- The number `digits * 10 ^ exponent`, without its sign. -/
structure Scientific where
  digits : Nat
  exponent : Int
deriving DecidableEq, Repr

namespace Binary64

/-- A quotient rounded to the nearest number, a tie to the even one. -/
def roundHalfEven (n d : Nat) : Nat :=
  let q := n / d
  let r := n % d
  if d < 2 * r ∨ d = 2 * r ∧ q % 2 = 1 then q + 1 else q

/-- A quotient rounded to the nearest number, a tie up. -/
def roundHalfUp (n d : Nat) : Nat :=
  if d ≤ 2 * (n % d) then n / d + 1 else n / d

/-- The fraction `n / d` divided by `2 ^ exponent`, as numerator and denominator. -/
def scaled (n d : Nat) (exponent : Int) : Nat × Nat :=
  (n <<< (-exponent).toNat, d <<< exponent.toNat)

/-- The least mantissa of 53 bits. -/
def leastMantissa : Nat := 1 <<< 52

def minExponent : Int := -1074

def maxExponent : Int := 971

/-- The exponent for which the mantissa of a fraction has 53 bits, or the least one. -/
def exponentOf (n d : Nat) : Int :=
  let estimate := (n.log2 : Int) - d.log2 - 52
  let (n', d') := scaled n d estimate
  let exact :=
    if n' / d' < leastMantissa then estimate - 1
    else if 2 * leastMantissa ≤ n' / d' then estimate + 1
    else estimate
  max exact minExponent

/-- The double nearest to a fraction, unless it is too large for one. -/
def nearest? (n d : Nat) : Option Binary64 :=
  if n = 0 then some ⟨0, minExponent⟩
  else
    let exponent := exponentOf n d
    let (n', d') := scaled n d exponent
    let mantissa := roundHalfEven n' d'
    let (mantissa, exponent) :=
      if mantissa = 2 * leastMantissa then (leastMantissa, exponent + 1) else (mantissa, exponent)
    if maxExponent < exponent then none else some ⟨mantissa, exponent⟩

/-- The double nearest to a number. Numbers far out of range are not computed. -/
def ofScientific? (s : Scientific) : Option Binary64 :=
  let magnitude := s.exponent + (Nat.toDigits 10 s.digits).length
  if s.digits = 0 ∨ magnitude < -330 then some ⟨0, minExponent⟩
  else if 320 < magnitude then none
  else nearest? (s.digits * Nat.pow 10 s.exponent.toNat) (Nat.pow 10 (-s.exponent).toNat)

/-- Compares a number with `quarters * 2 ^ (exponent - 2)`. -/
def compareQuarters (s : Scientific) (quarters : Nat) (exponent : Int) : Ordering :=
  let power := exponent - 2
  compare ((s.digits * Nat.pow 10 s.exponent.toNat) <<< (-power).toNat)
    ((quarters * Nat.pow 10 (-s.exponent).toNat) <<< power.toNat)

/-- Whether a number is rounded to a double. -/
def contains (b : Binary64) (s : Scientific) : Bool :=
  let middle := 4 * b.mantissa
  let below := if b.mantissa = leastMantissa ∧ minExponent < b.exponent then 1 else 2
  let low := compareQuarters s (middle - below) b.exponent
  let high := compareQuarters s (middle + 2) b.exponent
  if b.mantissa % 2 = 0 then low != .lt && high != .gt else low == .gt && high == .lt

/-- The number with `count` digits that is nearest to a double, among those rounded to it; of two
that are equally near, the larger. `magnitude` is the number of digits before the point. -/
def candidate? (b : Binary64) (magnitude : Int) (count : Nat) : Option Scientific :=
  let exponent := magnitude - count
  let n := (b.mantissa * Nat.pow 10 (-exponent).toNat) <<< b.exponent.toNat
  let d := Nat.pow 10 exponent.toNat <<< (-b.exponent).toNat
  let nearer : Scientific := ⟨roundHalfUp n d, exponent⟩
  let other : Scientific :=
    ⟨if nearer.digits = n / d then n / d + 1 else n / d, exponent⟩
  if b.contains nearer then some nearer
  else if b.contains other then some other
  else none

/-- How many digits a positive double has before the point; negative for zeros after it. -/
def magnitude (b : Binary64) : Int :=
  let n := b.mantissa <<< b.exponent.toNat
  let d := 1 <<< (-b.exponent).toNat
  if d ≤ n then (Nat.toDigits 10 (n / d)).length
  else 1 - (Nat.toDigits 10 ((d - 1) / n)).length

/-- The shortest number that is rounded to a double. Seventeen digits always suffice. -/
def shortest (b : Binary64) : Scientific :=
  if b.mantissa = 0 then ⟨0, 0⟩
  else ((List.range' 1 17).findSome? (b.candidate? b.magnitude)).getD ⟨0, 0⟩

end Binary64

end EndorsedChain
