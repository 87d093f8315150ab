import EndorsedChain.Proofs.Reward.Decimal

/-!
# Rounding toward negative infinity

An exact quotient is the quotient rounded toward zero plus the remainder over the divisor.  That
fraction is less than one apart from zero, and it is negative exactly if a remainder is left whose
sign is not the one of the divisor.  So the correction by one makes the floor of it, whatever the
signs are (`floorDiv_eq_floor`), and products, quotients and integer parts are rounded down.
-/

namespace EndorsedChain.Decimal

variable {n d : ℤ} {a b : Decimal}

/-! ## The remainder over the divisor -/

theorem div_eq_tdiv_add (n : ℤ) (hd : d ≠ 0) : (n : ℚ) / d = n.tdiv d + (n.tmod d : ℚ) / d := by
  have hsum : (d : ℚ) * n.tdiv d + n.tmod d = n := by exact_mod_cast n.mul_tdiv_add_tmod d
  have hd' : (d : ℚ) ≠ 0 := Int.cast_ne_zero.mpr hd
  rw [eq_comm, ← hsum]
  field_simp

theorem abs_tmod_div_lt_one (n : ℤ) (hd : d ≠ 0) : |(n.tmod d : ℚ) / d| < 1 := by
  have hlt : |n.tmod d| < |d| := by
    rw [Int.abs_eq_natAbs, Int.abs_eq_natAbs, Int.natAbs_tmod]
    exact_mod_cast Nat.mod_lt _ (Int.natAbs_pos.mpr hd)
  rw [abs_div, div_lt_one (abs_pos.mpr (Int.cast_ne_zero.mpr hd))]
  exact_mod_cast hlt

theorem tmod_div_neg_iff (n : ℤ) (hd : d ≠ 0) : (n.tmod d : ℚ) / d < 0 ↔
    n.tmod d ≠ 0 ∧ ¬(n.tmod d < 0 ↔ d < 0) := by
  rw [div_neg_iff, Int.cast_pos, Int.cast_lt_zero, Int.cast_lt_zero, Int.cast_pos]
  omega

/-- The corrected quotient is the floor of the exact one. -/
theorem floorDiv_eq_floor (n : ℤ) (hd : d ≠ 0) : floorDiv n d = ⌊(n : ℚ) / d⌋ := by
  obtain ⟨hlow, hhigh⟩ := abs_lt.mp (abs_tmod_div_lt_one n hd)
  have hfraction : floorDiv n d = n.tdiv d + ⌊(n.tmod d : ℚ) / d⌋ := by
    unfold floorDiv
    split
    · rename_i hcorrected
      have hneg := (tmod_div_neg_iff n hd).mpr hcorrected
      have hfloor : ⌊(n.tmod d : ℚ) / d⌋ = -1 :=
        Int.floor_eq_iff.mpr ⟨by simpa using hlow.le, by simpa using hneg⟩
      rw [hfloor, Int.sub_eq_add_neg]
    · rename_i hkept
      have hnonneg := not_lt.mp (mt (tmod_div_neg_iff n hd).mp hkept)
      rw [Int.floor_eq_zero_iff.mpr ⟨hnonneg, hhigh⟩, add_zero]
  rw [hfraction, div_eq_tdiv_add n hd, Int.floor_intCast_add]

/-! ## Products, quotients, integer parts -/

theorem mul_roundsDown (a b : Decimal) : (a * b).RoundsDown (a.toRat * b.toRat) := by
  apply roundsDown_of_floor
  have hexact : a.toRat * b.toRat * scale = ((a.units * b.units : ℤ) : ℚ) / scale := by
    have hscale := scale_pos_rat.ne'
    rw [toRat, toRat, Int.cast_mul]
    field_simp
  rw [hexact, ← floorDiv_eq_floor _ scale_pos.ne']
  rfl

theorem div_roundsDown (a : Decimal) (hb : b.units ≠ 0) :
    (⟨floorDiv (a.units * scale) b.units⟩ : Decimal).RoundsDown (a.toRat / b.toRat) := by
  apply roundsDown_of_floor
  have hexact : a.toRat / b.toRat * scale = ((a.units * scale : ℤ) : ℚ) / b.units := by
    rw [toRat, toRat, div_div_div_cancel_right₀ scale_pos_rat.ne', Int.cast_mul, div_mul_eq_mul_div]
  rw [hexact, ← floorDiv_eq_floor _ hb]

theorem floor_eq_floor_toRat (a : Decimal) : a.floor = ⌊a.toRat⌋ :=
  floorDiv_eq_floor a.units scale_pos.ne'

/-- Whatever the signs are, a product and a quotient are the largest multiples of 10⁻⁸ that are not
above the exact ones, there is no quotient by zero alone, and the floor is the largest integer that
is not above the number. -/
theorem arithmetic_rounds_down (a b : Decimal) :
    (a * b).RoundsDown (a.toRat * b.toRat) ∧
      (a.div? b = none ↔ b.toRat = 0) ∧
      (∀ q, a.div? b = some q → q.RoundsDown (a.toRat / b.toRat)) ∧
      IsGreatest {m : ℤ | (m : ℚ) ≤ a.toRat} a.floor := by
  refine ⟨mul_roundsDown a b, ?_, ?_, ?_⟩
  · rw [← isZero_iff_toRat]
    unfold div?
    split <;> simp [*]
  · intro q hq
    unfold div? at hq
    split at hq
    · cases hq
    · rename_i hzero
      cases hq
      exact div_roundsDown a (mt isZero_iff.mpr hzero)
  · rw [floor_eq_floor_toRat]
    exact ⟨Int.floor_le a.toRat, fun m hm ↦ Int.le_floor.mpr hm⟩

/-- One and minus one over minus three: the one quotient is rounded away from zero, the other one
toward it. -/
theorem thirds_round_down :
    one.div? (ofInt (-3)) = some ⟨-33333334⟩ ∧ (ofInt (-1)).div? (ofInt (-3)) = some ⟨33333333⟩ ∧
      (⟨-33333334⟩ : Decimal).RoundsDown (one.toRat / (ofInt (-3)).toRat) ∧
      (⟨33333333⟩ : Decimal).RoundsDown ((ofInt (-1)).toRat / (ofInt (-3)).toRat) := by
  have hfirst : one.div? (ofInt (-3)) = some ⟨-33333334⟩ := by decide
  have hsecond : (ofInt (-1)).div? (ofInt (-3)) = some ⟨33333333⟩ := by decide
  exact ⟨hfirst, hsecond, (arithmetic_rounds_down _ _).2.2.1 _ hfirst,
    (arithmetic_rounds_down _ _).2.2.1 _ hsecond⟩

end EndorsedChain.Decimal
