import EndorsedChain.Proofs.Reward.Checked
import EndorsedChain.Proofs.Reward.Split
import Mathlib.Tactic.IntervalCases
import Mathlib.Tactic.Positivity

/-!
# The linear tariff

Below the start of the decreasing line each point of the normalized score pays the same, and above
it less.  So a reward is never above the linear tariff, cut off at the threshold of the round, as
long as the price of a point falls along the line and is not negative at the threshold (`Tapers`).
All products and quotients are rounded down, so no rounding can lift a reward above the tariff.  It
could only take one below zero, which the price at the threshold rules out.
-/

namespace EndorsedChain.Reward.Config

variable {c : Config} {block round : ℕ} {difficulty score ratio slope : Decimal}

/-- The price of a point starts at the ratio of the round, falls along the decreasing line, and is
not negative where the threshold cuts the line off. -/
structure Tapers (c : Config) (round : ℕ) (ratio slope : Decimal) : Prop where
  ratio_eq : c.ratio round = .ok ratio
  slope_eq : c.slope round = .ok slope
  start_nonneg : 0 ≤ c.curve.startOfDecreasingLine.units
  start_le : c.curve.startOfDecreasingLine.units ≤ (c.maxRewardThreshold round).units
  slope_nonpos : slope.units ≤ 0
  price_nonneg :
    0 ≤ (slope * (c.maxRewardThreshold round - c.curve.startOfDecreasingLine) + ratio).units

/-- What a score would be paid at the ratio of the round for each point, up to the threshold. -/
def tariff (c : Config) (round : ℕ) (ratio difficulty score : Decimal) : ℚ :=
  (c.basicReward / 100 : ℕ) * ratio.toRat *
    min (100 * score.toRat / difficulty.toRat) (c.maxRewardThreshold round).toRat

namespace Tapers

/-- The price of a point on the line is between that at the threshold and the ratio. -/
theorem price_bounds (h : c.Tapers round ratio slope) {chopped : Decimal}
    (hstart : c.curve.startOfDecreasingLine.units ≤ chopped.units)
    (hthreshold : chopped.units ≤ (c.maxRewardThreshold round).units) :
    0 ≤ (slope * (chopped - c.curve.startOfDecreasingLine) + ratio).units ∧
      (slope * (chopped - c.curve.startOfDecreasingLine) + ratio).units ≤ ratio.units := by
  have hprice := h.price_nonneg
  simp only [Decimal.units_add, Decimal.units_mul, Decimal.units_sub,
    Int.fdiv_eq_ediv_of_nonneg _ Decimal.scale_pos.le] at hprice ⊢
  have hfall : slope.units * ((c.maxRewardThreshold round).units -
      c.curve.startOfDecreasingLine.units) / Decimal.scale ≤
        slope.units * (chopped.units - c.curve.startOfDecreasingLine.units) / Decimal.scale :=
    Int.ediv_le_ediv Decimal.scale_pos
      (mul_le_mul_of_nonpos_left (by omega) h.slope_nonpos)
  have hnonpos : slope.units * (chopped.units - c.curve.startOfDecreasingLine.units) /
      Decimal.scale ≤ 0 :=
    Int.ediv_nonpos_of_nonpos_of_neg
      (mul_nonpos_of_nonpos_of_nonneg h.slope_nonpos (by omega)) Decimal.scale_pos
  omega

theorem ratio_nonneg (h : c.Tapers round ratio slope) : 0 ≤ ratio.units := by
  obtain ⟨hnonneg, hle⟩ := h.price_bounds le_rfl h.start_le
  exact hnonneg.trans hle

/-- Below the start of the line the price is the ratio. -/
theorem linear_bounds (h : c.Tapers round ratio slope) {quotient : Decimal} {exact : ℚ}
    (hnonneg : 0 ≤ quotient.units) (hexact : quotient.toRat ≤ exact)
    (hstart : quotient * .ofNat 100 ≤ c.curve.startOfDecreasingLine) (budget : ℕ) :
    0 ≤ (.ofNat budget * quotient * .ofNat 100 * ratio : Decimal).toRat ∧
      (.ofNat budget * quotient * .ofNat 100 * ratio : Decimal).toRat ≤
        budget * ratio.toRat * min (100 * exact) (c.maxRewardThreshold round).toRat := by
  have hratio := h.ratio_nonneg
  have hpoints : quotient.toRat * 100 ≤ min (100 * exact) (c.maxRewardThreshold round).toRat := by
    have hthreshold : (quotient * .ofNat 100).toRat ≤ (c.maxRewardThreshold round).toRat :=
      Decimal.toRat_le_iff.mpr (Int.le_trans hstart h.start_le)
    rw [Decimal.toRat_mul_ofNat] at hthreshold
    exact le_min (by linarith) (by exact_mod_cast hthreshold)
  constructor
  · refine Decimal.toRat_nonneg_iff.mpr (Decimal.units_mul_nonneg ?_ hratio)
    rw [Decimal.units_mul_ofNat, Decimal.units_ofNat_mul]
    positivity
  · calc
      (.ofNat budget * quotient * .ofNat 100 * ratio : Decimal).toRat
        ≤ (.ofNat budget * quotient * .ofNat 100 : Decimal).toRat * ratio.toRat :=
          Decimal.toRat_mul_le _ _
      _ = budget * ratio.toRat * (quotient.toRat * 100) := by
          rw [Decimal.toRat_mul_ofNat, Decimal.toRat_ofNat_mul]
          push_cast
          ring
      _ ≤ budget * ratio.toRat * min (100 * exact) (c.maxRewardThreshold round).toRat :=
          mul_le_mul_of_nonneg_left hpoints
            (mul_nonneg budget.cast_nonneg (Decimal.toRat_nonneg_iff.mpr hratio))

/-- On the line all points are paid at a price that is no higher than the ratio. -/
theorem taper_bounds (h : c.Tapers round ratio slope) {normalized : Decimal} {exact : ℚ}
    (hstart : c.curve.startOfDecreasingLine.units ≤ normalized.units)
    (hexact : normalized.toRat ≤ exact) (budget : ℕ) :
    0 ≤ (.ofNat budget * min normalized (c.maxRewardThreshold round) *
        (slope * (min normalized (c.maxRewardThreshold round) - c.curve.startOfDecreasingLine) +
          ratio) : Decimal).toRat ∧
      (.ofNat budget * min normalized (c.maxRewardThreshold round) *
        (slope * (min normalized (c.maxRewardThreshold round) - c.curve.startOfDecreasingLine) +
          ratio) : Decimal).toRat ≤
        budget * ratio.toRat * min exact (c.maxRewardThreshold round).toRat := by
  have hchopped : c.curve.startOfDecreasingLine.units ≤
      (min normalized (c.maxRewardThreshold round)).units := le_min hstart h.start_le
  have hthreshold : (min normalized (c.maxRewardThreshold round)).units ≤
      (c.maxRewardThreshold round).units := min_le_right _ _
  have hpoints : (min normalized (c.maxRewardThreshold round)).toRat ≤
      min exact (c.maxRewardThreshold round).toRat := by
    rw [Decimal.toRat_min]
    exact min_le_min_right _ hexact
  obtain ⟨hprice, hratio⟩ := h.price_bounds hchopped hthreshold
  generalize min normalized (c.maxRewardThreshold round) = chopped at *
  generalize slope * (chopped - c.curve.startOfDecreasingLine) + ratio = price at *
  have hnonneg : 0 ≤ chopped.units := h.start_nonneg.trans hchopped
  constructor
  · refine Decimal.toRat_nonneg_iff.mpr (Decimal.units_mul_nonneg ?_ hprice)
    rw [Decimal.units_ofNat_mul]
    positivity
  · have hpositive : 0 ≤ budget * chopped.toRat :=
      mul_nonneg budget.cast_nonneg (Decimal.toRat_nonneg_iff.mpr hnonneg)
    calc
      (.ofNat budget * chopped * price : Decimal).toRat
        ≤ (.ofNat budget * chopped : Decimal).toRat * price.toRat := Decimal.toRat_mul_le _ _
      _ = budget * chopped.toRat * price.toRat := by rw [Decimal.toRat_ofNat_mul]
      _ ≤ budget * chopped.toRat * ratio.toRat :=
          mul_le_mul_of_nonneg_left (Decimal.toRat_le_iff.mpr hratio) hpositive
      _ = budget * ratio.toRat * chopped.toRat := by ring
      _ ≤ budget * ratio.toRat * min exact (c.maxRewardThreshold round).toRat :=
          mul_le_mul_of_nonneg_left hpoints (mul_nonneg budget.cast_nonneg
            (Decimal.toRat_nonneg_iff.mpr h.ratio_nonneg))

theorem curveValue_bounds (h : c.Tapers round ratio slope) (hscore : 0 ≤ score.units)
    (hdifficulty : 0 < difficulty.units) :
    0 ≤ (c.curveValue round ratio slope difficulty score).toRat ∧
      (c.curveValue round ratio slope difficulty score).toRat ≤
        c.tariff round ratio difficulty score := by
  unfold curveValue tariff
  dsimp only
  split
  · rename_i hstart
    rw [mul_div_assoc]
    exact h.linear_bounds (Decimal.units_quotient_nonneg hscore hdifficulty)
      (Decimal.toRat_quotient_le score hdifficulty) hstart _
  · rename_i hstart
    have hnormalized := Decimal.toRat_quotient_le (score * .ofNat 100) hdifficulty
    rw [Decimal.toRat_mul_ofNat, mul_comm score.toRat] at hnormalized
    have hrounding := Decimal.quotient_mul_ofNat_le score hdifficulty 100
    exact h.taper_bounds ((Int.not_le.mp hstart).le.trans hrounding)
      (by exact_mod_cast hnormalized) _

/-- The reward of a block is never negative, and never above the tariff. -/
theorem totalReward_bounds (h : c.Tapers (c.roundOf block) ratio slope)
    (hdifficulty : difficulty.isNegative = false) (hscore : score.isNegative = false) :
    ∃ reward, c.totalReward block difficulty score = .ok reward ∧ 0 ≤ reward.toRat ∧
      reward.toRat ≤ c.tariff (c.roundOf block) ratio (max difficulty .one) score := by
  have hpos : 0 < (max difficulty Decimal.one).units :=
    lt_of_lt_of_le Decimal.scale_pos (le_units_max_one difficulty)
  refine ⟨_, totalReward_eq hdifficulty hscore h.ratio_eq h.slope_eq, ?_⟩
  have hbounds := h.curveValue_bounds (Decimal.isNegative_eq_false_iff.mp hscore) hpos
  split
  · rw [Decimal.toRat_zero]
    exact ⟨le_rfl, hbounds.1.trans hbounds.2⟩
  · exact hbounds

/-- The threshold limits the reward of a block, whatever its score. -/
theorem blockReward_bounds (h : c.Tapers (c.roundOf block) ratio slope)
    (hdifficulty : difficulty.isNegative = false) (hscore : score.isNegative = false) :
    ∃ reward, c.blockReward block score difficulty = .ok reward ∧ 0 ≤ reward.toRat ∧
      reward.toRat ≤ (c.basicReward / 100 : ℕ) * ratio.toRat *
        (c.maxRewardThreshold (c.roundOf block)).toRat := by
  have hfactor : 0 ≤ ((c.basicReward / 100 : ℕ) : ℚ) * ratio.toRat :=
    mul_nonneg (Nat.cast_nonneg _) (Decimal.toRat_nonneg_iff.mpr h.ratio_nonneg)
  have hlimit (difficulty score : Decimal) (hdifficulty : difficulty.isNegative = false)
      (hscore : score.isNegative = false) :
      ∃ reward, c.totalReward block difficulty score = .ok reward ∧ 0 ≤ reward.toRat ∧
        reward.toRat ≤ (c.basicReward / 100 : ℕ) * ratio.toRat *
          (c.maxRewardThreshold (c.roundOf block)).toRat := by
    obtain ⟨reward, hreward, hnonneg, hle⟩ := h.totalReward_bounds hdifficulty hscore
    exact ⟨reward, hreward, hnonneg,
      hle.trans (mul_le_mul_of_nonneg_left (min_le_right _ _) hfactor)⟩
  unfold blockReward
  split
  · have hthreshold := Decimal.toRat_nonneg_iff.mpr (h.start_nonneg.trans h.start_le)
    exact ⟨.zero, rfl, Decimal.toRat_zero.ge,
      Decimal.toRat_zero.trans_le (mul_nonneg hfactor hthreshold)⟩
  · split
    · exact hlimit .one .one rfl rfl
    · exact hlimit difficulty score hdifficulty hscore

end Tapers

/-- With weights that are not negative, a block whose reward fits is paid out. -/
theorem exists_payout (hweights : ∀ w ∈ c.relativeScoreLookupTable, w.isNegative = false)
    {es : List (ℕ × Endorsement)} {reward : Decimal} {r : UInt64}
    (hreward : c.blockReward block (c.score (.ofList es)) difficulty = .ok reward)
    (hr : reward.floor = r.toNat) : ∃ p, c.payout block (.ofList es) difficulty = .ok p := by
  have hr := Decimal.toUInt64?_of_floor hr
  cases hzero : (c.score (.ofList es)).isZero with
  | true => exact ⟨_, payout_eq_ok_of_isZero hreward hr hzero⟩
  | false =>
    have hscore : 0 < (c.score (.ofList es)).units :=
      lt_of_le_of_ne (score_nonneg hweights es) fun heq ↦ by simp [Decimal.isZero, ← heq] at hzero
    have hne : (Endorsements.ofList es).lowest? ≠ none := by
      intro hnone
      rw [Config.score, hnone] at hscore
      exact lt_irrefl _ hscore
    obtain ⟨lowest, hlowest⟩ := Option.ne_none_iff_exists'.mp hne
    obtain ⟨paid, hpay, hpaid⟩ := payGroups_ofList hweights r hscore hlowest
    have hle : paid.units ≤ r :=
      UInt64.le_iff_toNat_le.mpr (hpaid.trans_le (total_amountAt hweights r hscore).1)
    exact ⟨_, payout_eq_ok hreward hr hzero hlowest hpay hle⟩

/-! ## The standard configuration -/

theorem tapers_standard (hround : round ≤ 3) : ∃ ratio slope,
    Config.standard.Tapers round ratio slope ∧ ratio.units ≤ (Decimal.ofNat 3).units := by
  interval_cases round
  all_goals exact ⟨_, _, ⟨rfl, rfl, by decide, by decide, by decide, by decide⟩, by decide⟩

theorem units_maxRewardThreshold_standard (round : ℕ) :
    (Config.standard.maxRewardThreshold round).units ≤ (Decimal.ofNat 300).units := by
  unfold maxRewardThreshold
  split <;> decide

/-- No block is paid more than a keystone block at its threshold. -/
theorem standard_limit (hratio : 0 ≤ ratio.units) (hle : ratio.units ≤ (Decimal.ofNat 3).units)
    (round : ℕ) : (Config.standard.basicReward / 100 : ℕ) * ratio.toRat *
      (Config.standard.maxRewardThreshold round).toRat ≤ (36000000000 : ℕ) := by
  have hnonneg := Decimal.toRat_nonneg_iff.mpr hratio
  have hle := Decimal.toRat_le_iff.mpr hle
  have hthreshold := Decimal.toRat_le_iff.mpr (units_maxRewardThreshold_standard round)
  rw [Decimal.toRat_ofNat] at hle hthreshold
  have hbudget : Config.standard.basicReward / 100 = 40000000 := rfl
  rw [hbudget]
  calc
    ((40000000 : ℕ) : ℚ) * ratio.toRat * (Config.standard.maxRewardThreshold round).toRat
      ≤ (40000000 : ℕ) * ratio.toRat * (300 : ℕ) :=
        mul_le_mul_of_nonneg_left hthreshold (mul_nonneg (Nat.cast_nonneg _) hnonneg)
    _ ≤ (40000000 : ℕ) * (3 : ℕ) * (300 : ℕ) :=
        mul_le_mul_of_nonneg_right (mul_le_mul_of_nonneg_left hle (Nat.cast_nonneg _))
          (Nat.cast_nonneg _)
    _ = (36000000000 : ℕ) := by norm_num

/-- The standard configuration pays out every block, whatever endorses it, at any difficulty that is
not negative.  The reward of a block before the flat rule is not negative, and at most its linear
tariff up to the threshold of its round. -/
theorem standard_keeps_tariff (block : ℕ) (difficulty : Decimal)
    (hdifficulty : difficulty.isNegative = false) :
    (∀ es : List (ℕ × Endorsement),
      ∃ p, Config.standard.payout block (.ofList es) difficulty = .ok p) ∧
    ∀ score : Decimal, score.isNegative = false → ∃ reward ratio,
      Config.standard.totalReward block difficulty score = .ok reward ∧
      Config.standard.ratio (Config.standard.roundOf block) = .ok ratio ∧
      0 ≤ reward.toRat ∧
      reward.toRat ≤ (Config.standard.basicReward / 100 : ℕ) * ratio.toRat *
        min (100 * score.toRat / max difficulty.toRat 1)
          (Config.standard.maxRewardThreshold (Config.standard.roundOf block)).toRat := by
  obtain ⟨ratio, slope, htapers, hratio⟩ :=
    tapers_standard (Config.standard.roundOf_le_highestRound block)
  refine ⟨fun es ↦ ?_, fun score hscore ↦ ?_⟩
  · have hweights : ∀ w ∈ Config.standard.relativeScoreLookupTable, w.isNegative = false := by
      decide
    obtain ⟨reward, hreward, hnonneg, hle⟩ := htapers.blockReward_bounds hdifficulty
      (Decimal.isNegative_eq_false_iff.mpr (score_nonneg hweights es))
    have hlimit := standard_limit htapers.ratio_nonneg hratio (Config.standard.roundOf block)
    obtain ⟨r, hr⟩ := Decimal.exists_floor_eq (by decide) hnonneg (hle.trans hlimit)
    exact exists_payout hweights hreward hr
  · obtain ⟨reward, hreward, hnonneg, hle⟩ := htapers.totalReward_bounds hdifficulty hscore
    rw [tariff, Decimal.toRat_max, Decimal.toRat_one] at hle
    exact ⟨reward, ratio, hreward, htapers.ratio_eq, hnonneg, hle⟩

/-- A keystone block at half the least difficulty, with a score far above the threshold. -/
theorem keystone_keeps_tariff :
    (∃ p, Config.standard.payout 40 (.ofList lateEndorsements) ⟨50000000⟩ = .ok p) ∧
      ∃ reward, Config.standard.totalReward 40 ⟨50000000⟩ (.ofNat 7) = .ok reward ∧
        0 ≤ reward.toRat ∧ reward.toRat ≤ (36000000000 : ℕ) := by
  obtain ⟨hpayout, htotal⟩ := standard_keeps_tariff 40 ⟨50000000⟩ rfl
  obtain ⟨reward, ratio, hreward, hratio, hnonneg, hle⟩ := htotal (.ofNat 7) rfl
  have hratio : Decimal.ofNat 3 = ratio := Except.ok.inj hratio
  have hbound : 0 ≤ ((Config.standard.basicReward / 100 : ℕ) : ℚ) * ratio.toRat :=
    mul_nonneg (Nat.cast_nonneg _) (Decimal.toRat_nonneg_iff.mpr (hratio ▸ by decide))
  refine ⟨hpayout lateEndorsements, reward, hreward, hnonneg, hle.trans ?_⟩
  exact (mul_le_mul_of_nonneg_left (min_le_right _ _) hbound).trans
    (standard_limit (hratio ▸ by decide) (hratio ▸ le_rfl) _)

end EndorsedChain.Reward.Config
