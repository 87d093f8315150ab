import EndorsedChain.Reward.Decimal
import Mathlib.Data.Rat.Floor
import Mathlib.Tactic.FieldSimp

/-!
# Decimals as rational numbers

Sums are exact, and so are products with whole numbers.  Other products and quotients are rounded
down (`toRat_mul_le`, `toRat_quotient_le`), and rounding a quotient down once more to a whole number
comes to the floor of the exact quotient (`floor_quotient`).
-/

namespace EndorsedChain.Decimal

/-- The exact value of a decimal. -/
def toRat (a : Decimal) : ℚ := a.units / scale

variable {a b : Decimal} {n : ℕ}

theorem scale_pos : 0 < scale := by decide

theorem scale_pos_rat : (0 : ℚ) < scale := by exact_mod_cast scale_pos

theorem toRat_add (a b : Decimal) : (a + b).toRat = a.toRat + b.toRat := by
  rw [toRat, units_add, Int.cast_add, add_div]
  rfl

theorem toRat_sub (a b : Decimal) : (a - b).toRat = a.toRat - b.toRat := by
  rw [toRat, units_sub, Int.cast_sub, sub_div]
  rfl

/-- Sums are exact. -/
theorem toRat_sum {α : Type} (f : α → Decimal) (l : List α) :
    (⟨(l.map fun x ↦ (f x).units).sum⟩ : Decimal).toRat = (l.map fun x ↦ (f x).toRat).sum := by
  induction l with
  | nil => simp [toRat]
  | cons x l ih =>
    rw [List.map_cons, List.sum_cons, List.map_cons, List.sum_cons, ← ih, toRat, Int.cast_add,
      add_div]
    rfl

theorem isZero_iff : a.isZero = true ↔ a.units = 0 := beq_iff_eq

theorem isNegative_eq_false_iff : a.isNegative = false ↔ 0 ≤ a.units := by
  simp [isNegative]

theorem units_ofNat (n : ℕ) : (ofNat n).units = n * scale := rfl

theorem units_mul_ofNat (a : Decimal) (n : ℕ) : (a * ofNat n).units = a.units * n := by
  rw [units_mul, units_ofNat, ← mul_assoc]
  exact Int.mul_fdiv_cancel _ scale_pos.ne'

theorem units_ofNat_mul (n : ℕ) (a : Decimal) : (ofNat n * a).units = n * a.units := by
  rw [units_mul, mul_comm, units_ofNat, ← mul_assoc, mul_comm a.units]
  exact Int.mul_fdiv_cancel _ scale_pos.ne'

theorem div?_eq_some (hb : 0 < b.units) :
    a.div? b = some ⟨a.units * scale / b.units⟩ := by
  rw [div?, if_neg (by rw [isZero_iff]; omega), floorDiv_eq_fdiv _ hb.ne',
    Int.fdiv_eq_ediv_of_nonneg _ hb.le]

/-- The quotient by a positive number, rounded down. -/
def quotient (a b : Decimal) : Decimal := ⟨a.units * scale / b.units⟩

theorem div?_eq_quotient (hb : 0 < b.units) : a.div? b = some (a.quotient b) := div?_eq_some hb

/-- Rounding the rounded quotient. -/
theorem floor_quotient (a : Decimal) (hb : 0 < b.units) :
    (⟨a.units * scale / b.units⟩ : Decimal).floor = a.units / b.units := by
  rw [floor_eq_fdiv, Int.fdiv_eq_ediv_of_nonneg _ scale_pos.le, Int.ediv_ediv_of_nonneg hb.le,
    Int.mul_ediv_mul_of_pos_left _ _ scale_pos]

/-- The floor of an exact quotient. -/
theorem floor_toRat_div (n : ℕ) (a : Decimal) (hb : 0 < b.units) :
    ⌊(n : ℚ) * a.toRat / b.toRat⌋ = n * a.units / b.units := by
  obtain ⟨d, hd⟩ := Int.eq_ofNat_of_zero_le hb.le
  have hscale : (scale : ℚ) ≠ 0 := scale_pos_rat.ne'
  have hquotient : (n : ℚ) * a.toRat / b.toRat = ((n * a.units : ℤ) : ℚ) / (d : ℚ) := by
    rw [toRat, toRat, hd]
    push_cast
    field_simp
  rw [hquotient, Rat.floor_intCast_div_natCast, hd]

theorem toUInt64?_of_floor {u : UInt64} (h : a.floor = u.toNat) : a.toUInt64? = some u := by
  have hlt : u.toNat < UInt64.size := u.toNat_lt
  rw [toUInt64?, h, if_pos ⟨by omega, by exact_mod_cast hlt⟩]
  simp

/-! ## Order -/

theorem toRat_le_iff : a.toRat ≤ b.toRat ↔ a.units ≤ b.units := by
  rw [toRat, toRat, div_le_div_iff_of_pos_right scale_pos_rat, Int.cast_le]

theorem toRat_inj : a.toRat = b.toRat ↔ a = b := by
  rw [toRat, toRat, div_left_inj' scale_pos_rat.ne', Int.cast_inj, Decimal.mk.injEq]

theorem toRat_zero : zero.toRat = 0 := by simp [toRat]

theorem toRat_nonneg_iff : 0 ≤ a.toRat ↔ 0 ≤ a.units := by
  rw [← toRat_zero, toRat_le_iff, units_zero]

theorem toRat_pos_iff : 0 < a.toRat ↔ 0 < a.units := by
  rw [← not_le, ← toRat_zero, toRat_le_iff, not_le, units_zero]

theorem isNegative_eq_false_iff_toRat : a.isNegative = false ↔ 0 ≤ a.toRat := by
  rw [isNegative_eq_false_iff, toRat_nonneg_iff]

theorem isZero_iff_toRat : a.isZero = true ↔ a.toRat = 0 := by
  rw [isZero_iff, ← toRat_zero, toRat_inj, zero, Decimal.mk.injEq]

theorem toRat_ofNat (n : ℕ) : (ofNat n).toRat = n := by
  rw [toRat, units_ofNat]
  push_cast
  exact mul_div_cancel_right₀ _ scale_pos_rat.ne'

theorem toRat_one : one.toRat = 1 := toRat_ofNat 1

theorem toRat_max (a b : Decimal) : (max a b).toRat = max a.toRat b.toRat := by
  rw [toRat, toRat, toRat, max_div_div_right scale_pos_rat.le, ← Int.cast_max]
  rfl

theorem toRat_min (a b : Decimal) : (min a b).toRat = min a.toRat b.toRat := by
  rw [toRat, toRat, toRat, min_div_div_right scale_pos_rat.le, ← Int.cast_min]
  rfl

theorem toRat_ofNat_mul (n : ℕ) (a : Decimal) : (ofNat n * a).toRat = n * a.toRat := by
  rw [toRat, units_ofNat_mul, Int.cast_mul, mul_div_assoc]
  rfl

theorem toRat_mul_ofNat (a : Decimal) (n : ℕ) : (a * ofNat n).toRat = a.toRat * n := by
  rw [toRat, units_mul_ofNat, Int.cast_mul, mul_div_right_comm]
  rfl

/-- A product is the largest decimal that is not above the exact product. -/
theorem toRat_le_toRat_mul_iff {x : Decimal} :
    x.toRat ≤ (a * b).toRat ↔ x.toRat ≤ a.toRat * b.toRat := by
  rw [toRat_le_iff, units_mul, Int.fdiv_eq_ediv_of_nonneg _ scale_pos.le,
    Int.le_ediv_iff_mul_le scale_pos, toRat, toRat, toRat, div_mul_div_comm,
    div_le_div_iff₀ scale_pos_rat (mul_pos scale_pos_rat scale_pos_rat), ← mul_assoc,
    mul_le_mul_iff_left₀ scale_pos_rat]
  exact_mod_cast Iff.rfl

/-- Products are rounded down. -/
theorem toRat_mul_le (a b : Decimal) : (a * b).toRat ≤ a.toRat * b.toRat :=
  toRat_le_toRat_mul_iff.mp le_rfl

/-- Rounding a product takes less than one unit. -/
theorem toRat_mul_lt (a b : Decimal) : a.toRat * b.toRat < (a * b).toRat + 1 / scale := by
  have hnext : (⟨(a * b).units + 1⟩ : Decimal).toRat = (a * b).toRat + 1 / scale := by
    rw [toRat, toRat, Int.cast_add, Int.cast_one, add_div]
  rw [← hnext, ← not_le, ← toRat_le_toRat_mul_iff, toRat_le_iff]
  exact not_le.mpr (Int.lt_succ _)

theorem units_mul_nonneg (ha : 0 ≤ a.units) (hb : 0 ≤ b.units) : 0 ≤ (a * b).units := by
  rw [units_mul]
  exact Int.fdiv_nonneg (mul_nonneg ha hb) scale_pos.le

/-- Quotients are rounded down. -/
theorem toRat_quotient_le (a : Decimal) (hb : 0 < b.units) :
    (a.quotient b).toRat ≤ a.toRat / b.toRat := by
  have hunits : (0 : ℚ) < b.units := by exact_mod_cast hb
  have hfloor : a.units * scale / b.units * b.units ≤ a.units * scale :=
    Int.ediv_mul_le _ hb.ne'
  rw [toRat, toRat, toRat, div_div_div_cancel_right₀ scale_pos_rat.ne',
    div_le_div_iff₀ scale_pos_rat hunits]
  exact_mod_cast hfloor

theorem units_quotient_nonneg (ha : 0 ≤ a.units) (hb : 0 < b.units) :
    0 ≤ (a.quotient b).units :=
  Int.ediv_nonneg (mul_nonneg ha scale_pos.le) hb.le

/-- Multiplying first rounds less away. -/
theorem quotient_mul_ofNat_le (a : Decimal) (hb : 0 < b.units) (n : ℕ) :
    (a.quotient b * ofNat n).units ≤ ((a * ofNat n).quotient b).units := by
  rw [units_mul_ofNat, quotient, quotient, units_mul_ofNat]
  refine Int.le_ediv_of_mul_le hb ?_
  have hfloor : a.units * scale / b.units * b.units ≤ a.units * scale :=
    Int.ediv_mul_le _ hb.ne'
  calc
    a.units * scale / b.units * n * b.units = a.units * scale / b.units * b.units * n := by ring
    _ ≤ a.units * scale * n := mul_le_mul_of_nonneg_right hfloor n.cast_nonneg
    _ = a.units * n * scale := by ring

/-- A quotient is rounded once, so that it depends on nothing but the exact quotient. -/
theorem units_quotient (a : Decimal) (hb : 0 < b.units) :
    (a.quotient b).units = ⌊(100000000 : ℕ) * (a.toRat / b.toRat)⌋ := by
  rw [← mul_div_assoc, floor_toRat_div _ _ hb, quotient, mul_comm]
  rfl

theorem quotient_eq_quotient {a' b' : Decimal} (hb : 0 < b.units) (hb' : 0 < b'.units)
    (h : a.toRat / b.toRat = a'.toRat / b'.toRat) : a.quotient b = a'.quotient b' := by
  rw [← toRat_inj, toRat, toRat, units_quotient a hb, units_quotient a' hb', h]

/-- A decimal is the largest multiple of 10⁻⁸ that is not above a number. -/
def RoundsDown (a : Decimal) (x : ℚ) : Prop :=
  IsGreatest {y : ℚ | (∃ n : ℤ, y = n / 10 ^ 8) ∧ y ≤ x} a.toRat

theorem scale_eq_pow : (scale : ℚ) = 10 ^ 8 := by norm_num [scale]

theorem roundsDown_of_floor {x : ℚ} (h : a.units = ⌊x * scale⌋) : a.RoundsDown x := by
  constructor
  · refine ⟨⟨a.units, by rw [toRat, scale_eq_pow]⟩, ?_⟩
    rw [toRat, div_le_iff₀ scale_pos_rat, h]
    exact Int.floor_le _
  · rintro _ ⟨⟨n, rfl⟩, hle⟩
    rw [← scale_eq_pow, div_le_iff₀ scale_pos_rat, ← Int.le_floor, ← h] at hle
    rw [toRat, ← scale_eq_pow, div_le_div_iff_of_pos_right scale_pos_rat]
    exact_mod_cast hle

/-- What is a decimal already stays as it is. -/
theorem RoundsDown.eq (h : a.RoundsDown b.toRat) : a = b := by
  have hself : b.RoundsDown b.toRat := roundsDown_of_floor (by
    rw [toRat, div_mul_cancel₀ _ scale_pos_rat.ne', Int.floor_intCast])
  exact toRat_inj.mp (h.unique hself)

/-- What is between zero and a number that fits 64 bits has a floor that does. -/
theorem exists_floor_eq {n : ℕ} (hn : n < UInt64.size) (hnonneg : 0 ≤ a.toRat)
    (hle : a.toRat ≤ n) : ∃ u : UInt64, a.floor = u.toNat := by
  have hfloor : 0 ≤ a.floor := by
    rw [floor_eq_fdiv]
    exact Int.fdiv_nonneg (toRat_nonneg_iff.mp hnonneg) scale_pos.le
  have hunits : a.units ≤ n * scale := by
    rw [← toRat_ofNat, toRat_le_iff] at hle
    exact hle
  have hbound : a.floor ≤ n := by
    rw [floor_eq_fdiv, Int.fdiv_eq_ediv_of_nonneg _ scale_pos.le]
    exact Int.ediv_le_of_le_mul scale_pos hunits
  obtain ⟨m, hm⟩ := Int.eq_ofNat_of_zero_le hfloor
  refine ⟨UInt64.ofNat m, ?_⟩
  rw [hm, UInt64.toNat_ofNat_of_lt' (by omega)]

end EndorsedChain.Decimal
