import EndorsedChain.Proofs.Reward.Checked

/-!
# Rewards in proportion to the difficulty

The curve divides the score and a hundred times the score by the difficulty, each time rounding the
exact quotient once.  Before the divisions nothing is rounded, and after them neither number is used
again.  So the reward depends on how many times the difficulty a score is, and not on either number
(`reward_keeps_proportion`).  A difficulty below one is replaced by one.
-/

namespace EndorsedChain.Reward.Config

variable {c : Config} {block round : ℕ} {difficulty difficulty' score score' : Decimal}

theorem curveReward_eq_curveReward (hdifficulty : 0 < difficulty.units)
    (hdifficulty' : 0 < difficulty'.units)
    (h : score.toRat / difficulty.toRat = score'.toRat / difficulty'.toRat) :
    c.curveReward round difficulty score = c.curveReward round difficulty' score' := by
  have hquotient : score.quotient difficulty = score'.quotient difficulty' :=
    Decimal.quotient_eq_quotient hdifficulty hdifficulty' h
  have hhundred : (score * .ofNat 100).quotient difficulty =
      (score' * .ofNat 100).quotient difficulty' := by
    refine Decimal.quotient_eq_quotient hdifficulty hdifficulty' ?_
    rw [Decimal.toRat_mul_ofNat, Decimal.toRat_mul_ofNat, mul_div_right_comm, h, mul_div_right_comm]
  unfold curveReward
  simp only [Decimal.div?_eq_quotient hdifficulty, Decimal.div?_eq_quotient hdifficulty', hquotient,
    hhundred]

/-- A difficulty below one counts as one, for any score. -/
theorem totalReward_eq_of_le_one (hnonneg : 0 ≤ difficulty.toRat) (hle : difficulty.toRat ≤ 1) :
    c.totalReward block difficulty score = c.totalReward block .one score := by
  have hone : max difficulty .one = max Decimal.one .one := by
    rw [← Decimal.toRat_inj, Decimal.toRat_max, Decimal.toRat_max, Decimal.toRat_one,
      max_eq_right hle, max_self]
  unfold totalReward
  rw [Decimal.isNegative_eq_false_iff_toRat.mpr hnonneg, hone]
  rfl

/-- Nothing else is read from the score and the difficulty than their ratio, and whether there is a
score at all. -/
theorem totalReward_eq_totalReward (hscore : 0 ≤ score.toRat) (hdifficulty : 1 ≤ difficulty.toRat)
    (hdifficulty' : 1 ≤ difficulty'.toRat)
    (h : score.toRat / difficulty.toRat = score'.toRat / difficulty'.toRat) :
    c.totalReward block difficulty score = c.totalReward block difficulty' score' := by
  have hpos : 0 < difficulty.toRat := one_pos.trans_le hdifficulty
  have hpos' : 0 < difficulty'.toRat := one_pos.trans_le hdifficulty'
  have hmul : score'.toRat = score.toRat / difficulty.toRat * difficulty'.toRat := by
    rw [h, div_mul_cancel₀ _ hpos'.ne']
  have hscore' : 0 ≤ score'.toRat := hmul ▸ mul_nonneg (div_nonneg hscore hpos.le) hpos'.le
  have hzero : score.isZero = score'.isZero := by
    rw [Bool.eq_iff_iff, Decimal.isZero_iff_toRat, Decimal.isZero_iff_toRat, hmul]
    simp [hpos.ne', hpos'.ne']
  have hmax {d : Decimal} (hd : 1 ≤ d.toRat) : max d .one = d := by
    rw [← Decimal.toRat_inj, Decimal.toRat_max, Decimal.toRat_one, max_eq_left hd]
  unfold totalReward
  rw [Decimal.isNegative_eq_false_iff_toRat.mpr hpos.le,
    Decimal.isNegative_eq_false_iff_toRat.mpr hpos'.le,
    Decimal.isNegative_eq_false_iff_toRat.mpr hscore,
    Decimal.isNegative_eq_false_iff_toRat.mpr hscore', hzero, hmax hdifficulty, hmax hdifficulty',
    curveReward_eq_curveReward (Decimal.toRat_pos_iff.mp hpos) (Decimal.toRat_pos_iff.mp hpos') h]
  rfl

theorem Checked.exists_totalReward (h : c.Checked) (block : ℕ) (hdifficulty : 0 ≤ difficulty.toRat)
    (hscore : 0 ≤ score.toRat) : ∃ reward, c.totalReward block difficulty score = .ok reward := by
  obtain ⟨ratio, hratio⟩ := h.exists_ratio (c.roundOf_le_highestRound block)
  obtain ⟨slope, hslope⟩ := h.exists_slope hratio
  exact ⟨_, totalReward_eq (Decimal.isNegative_eq_false_iff_toRat.mpr hdifficulty)
    (Decimal.isNegative_eq_false_iff_toRat.mpr hscore) hratio hslope⟩

/-- With a checked configuration a block has a reward, and the same one for all scores in the same
exact proportion to the difficulty.  All difficulties up to one have the reward of one. -/
theorem reward_keeps_proportion (hcheck : c.check = .ok ()) (block : ℕ) :
    (∀ difficulty difficulty' score score' : Decimal, 1 ≤ difficulty.toRat →
      1 ≤ difficulty'.toRat → 0 ≤ score.toRat →
      score.toRat * difficulty'.toRat = score'.toRat * difficulty.toRat →
      ∃ reward, c.totalReward block difficulty score = .ok reward ∧
        c.totalReward block difficulty' score' = .ok reward) ∧
    ∀ difficulty score : Decimal, 0 ≤ difficulty.toRat → difficulty.toRat ≤ 1 →
      c.totalReward block difficulty score = c.totalReward block .one score := by
  refine ⟨fun difficulty difficulty' score score' hdifficulty hdifficulty' hscore h ↦ ?_,
    fun _ _ ↦ totalReward_eq_of_le_one⟩
  have hpos : 0 < difficulty.toRat := one_pos.trans_le hdifficulty
  have hpos' : 0 < difficulty'.toRat := one_pos.trans_le hdifficulty'
  have hratio : score.toRat / difficulty.toRat = score'.toRat / difficulty'.toRat :=
    (div_eq_div_iff hpos.ne' hpos'.ne').mpr h
  obtain ⟨reward, hreward⟩ := (checked_of_check hcheck).exists_totalReward block hpos.le hscore
  exact ⟨reward, hreward,
    (totalReward_eq_totalReward hscore hdifficulty hdifficulty' hratio).symm.trans hreward⟩

/-- Scores of four thirds of the difficulty, which no decimal states exactly, and a high score at
the lowest difficulty. -/
theorem four_thirds_keep_proportion :
    (∃ reward, Config.standard.totalReward 21 (.ofNat 3) (.ofNat 4) = .ok reward ∧
      Config.standard.totalReward 21 ⟨450000000⟩ (.ofNat 6) = .ok reward) ∧
    Config.standard.totalReward 21 .zero (.ofNat 6) =
      Config.standard.totalReward 21 .one (.ofNat 6) := by
  obtain ⟨hratio, hone⟩ := reward_keeps_proportion (c := .standard) rfl 21
  constructor
  · refine hratio (.ofNat 3) ⟨450000000⟩ (.ofNat 4) (.ofNat 6) ?_ ?_ ?_ ?_ <;>
      norm_num [Decimal.toRat, Decimal.ofNat, Decimal.ofInt, Decimal.scale]
  · exact hone .zero (.ofNat 6) Decimal.toRat_zero.ge (Decimal.toRat_zero.trans_le zero_le_one)

end EndorsedChain.Reward.Config
