import EndorsedChain.Proofs.Reward.Tariff
import Mathlib.Tactic.NormNum

/-!
# How the reward grows with the score

The points of a score that are paid grow with the score, up to the threshold (`paidPoints_mono`).
All of them have the same price, that of the last one, which falls along the decreasing line.  So
further points are worth their own price less what they take from the price of the others: each of
them the marginal price (`worth_add_le`), which turns negative where the line is long and steep, as
it is for the standard keystones.

The price of a point is rounded down, which takes up to one unit from each point that is paid.  A
reward can fall by that much although the points are worth more (`value_lt_of_worth_le`), unless
they are worth enough more (`value_le_of_worth_add_le`).
-/

namespace EndorsedChain.Reward.Config

variable {c : Config} {block round : ℕ} {difficulty score less more ratio slope : Decimal}

/-! ## Paid points -/

/-- The points of a score that are paid, rounded as they are on either side of the start of the
decreasing line. -/
def paidPoints (c : Config) (round : ℕ) (difficulty score : Decimal) : Decimal :=
  if score.quotient difficulty * .ofNat 100 ≤ c.curve.startOfDecreasingLine then
    score.quotient difficulty * .ofNat 100
  else min ((score * .ofNat 100).quotient difficulty) (c.maxRewardThreshold round)

theorem paidPoints_bounds (h : c.Tapers round ratio slope) (hdifficulty : 0 < difficulty.units)
    (hscore : 0 ≤ score.units) :
    0 ≤ (c.paidPoints round difficulty score).units ∧
      (c.paidPoints round difficulty score).units ≤ (c.maxRewardThreshold round).units := by
  unfold paidPoints
  split
  · rename_i hstart
    refine ⟨?_, Int.le_trans hstart h.start_le⟩
    rw [Decimal.units_mul_ofNat]
    exact mul_nonneg (Decimal.units_quotient_nonneg hscore hdifficulty) (Nat.cast_nonneg _)
  · refine ⟨le_min (Decimal.units_quotient_nonneg ?_ hdifficulty)
      (h.start_nonneg.trans h.start_le), min_le_right _ _⟩
    rw [Decimal.units_mul_ofNat]
    exact mul_nonneg hscore (Nat.cast_nonneg _)

/-- A higher score does not have fewer points. -/
theorem paidPoints_mono (h : c.Tapers round ratio slope) (hdifficulty : 0 < difficulty.units)
    (hle : less ≤ more) :
    c.paidPoints round difficulty less ≤ c.paidPoints round difficulty more := by
  have hquotient {a b : Decimal} (hab : a ≤ b) :
      (a.quotient difficulty).units ≤ (b.quotient difficulty).units :=
    Int.ediv_le_ediv hdifficulty (mul_le_mul_of_nonneg_right hab Decimal.scale_pos.le)
  have hhundred {a b : Decimal} (hab : a ≤ b) : a * .ofNat 100 ≤ b * .ofNat 100 := by
    rw [Decimal.le_iff, Decimal.units_mul_ofNat, Decimal.units_mul_ofNat]
    exact mul_le_mul_of_nonneg_right hab (Nat.cast_nonneg _)
  unfold paidPoints
  split
  · rename_i hless
    split
    · exact hhundred (hquotient hle)
    · rename_i hmore
      -- the points pass the start of the line
      have hrounding := Decimal.quotient_mul_ofNat_le more hdifficulty 100
      exact Int.le_trans hless (le_min ((Int.not_le.mp hmore).le.trans hrounding) h.start_le)
  · rename_i hless
    split
    · rename_i hmore
      exact absurd (Int.le_trans (hhundred (hquotient hle)) hmore) hless
    · exact min_le_min_right _ (hquotient (hhundred hle))

/-! ## Their price -/

/-- The price of each of so many points, rounded down. -/
def price (c : Config) (ratio slope x : Decimal) : Decimal :=
  slope * (max x c.curve.startOfDecreasingLine - c.curve.startOfDecreasingLine) + ratio

/-- What is paid for so many points. -/
def value (c : Config) (ratio slope x : Decimal) : Decimal :=
  .ofNat (c.basicReward / 100) * x * c.price ratio slope x

/-- What so many points are worth before anything is rounded. -/
def worth (c : Config) (ratio slope : Decimal) (x : ℚ) : ℚ :=
  (c.basicReward / 100 : ℕ) * x * (ratio.toRat + slope.toRat *
    (max x c.curve.startOfDecreasingLine.toRat - c.curve.startOfDecreasingLine.toRat))

/-- What rounding takes from the value of so many points: less than a unit of the price of each of
them, and less than one of the product. -/
def roundingLoss (c : Config) (x : Decimal) : ℚ :=
  (c.basicReward / 100 : ℕ) * x.toRat / Decimal.scale + 1 / Decimal.scale

/-- Where the points after `x` up to `y` are on the line, what each of them adds to the worth. -/
def marginalPrice (c : Config) (ratio slope : Decimal) (x y : ℚ) : ℚ :=
  ratio.toRat + slope.toRat * (max x c.curve.startOfDecreasingLine.toRat + y -
    c.curve.startOfDecreasingLine.toRat)

theorem price_of_le_start {x : Decimal} (hx : x ≤ c.curve.startOfDecreasingLine) :
    c.price ratio slope x = ratio := by
  have hmax : max x c.curve.startOfDecreasingLine = c.curve.startOfDecreasingLine :=
    congrArg Decimal.mk (max_eq_right hx)
  rw [price, hmax]
  refine congrArg Decimal.mk ?_
  simp

/-- All points have the price of the last one. -/
theorem curveValue_eq_value (h : c.Tapers round ratio slope) (hdifficulty : 0 < difficulty.units) :
    c.curveValue round ratio slope difficulty score =
      c.value ratio slope (c.paidPoints round difficulty score) := by
  unfold curveValue paidPoints value
  dsimp only
  split
  · rename_i hstart
    rw [price_of_le_start hstart]
    have hpoints : .ofNat (c.basicReward / 100) * score.quotient difficulty * .ofNat 100 =
        Decimal.ofNat (c.basicReward / 100) * (score.quotient difficulty * .ofNat 100) := by
      rw [← Decimal.toRat_inj, Decimal.toRat_mul_ofNat, Decimal.toRat_ofNat_mul,
        Decimal.toRat_ofNat_mul, Decimal.toRat_mul_ofNat, mul_assoc]
    rw [hpoints]
  · rename_i hstart
    have hrounding := Decimal.quotient_mul_ofNat_le score hdifficulty 100
    have hle : c.curve.startOfDecreasingLine.units ≤
        (min ((score * .ofNat 100).quotient difficulty) (c.maxRewardThreshold round)).units :=
      le_min ((Int.not_le.mp hstart).le.trans hrounding) h.start_le
    have hmax : max (min ((score * .ofNat 100).quotient difficulty) (c.maxRewardThreshold round))
        c.curve.startOfDecreasingLine =
          min ((score * .ofNat 100).quotient difficulty) (c.maxRewardThreshold round) :=
      congrArg Decimal.mk (max_eq_left hle)
    rw [price, hmax]

section Worth

variable {x y : Decimal}

/-- The price is rounded down, and by less than one unit. -/
theorem toRat_price_bounds (c : Config) (ratio slope x : Decimal) :
    (c.price ratio slope x).toRat ≤ ratio.toRat + slope.toRat *
        (max x.toRat c.curve.startOfDecreasingLine.toRat - c.curve.startOfDecreasingLine.toRat) ∧
      ratio.toRat + slope.toRat *
        (max x.toRat c.curve.startOfDecreasingLine.toRat - c.curve.startOfDecreasingLine.toRat) <
          (c.price ratio slope x).toRat + 1 / Decimal.scale := by
  have hle := Decimal.toRat_mul_le slope
    (max x c.curve.startOfDecreasingLine - c.curve.startOfDecreasingLine)
  have hlt := Decimal.toRat_mul_lt slope
    (max x c.curve.startOfDecreasingLine - c.curve.startOfDecreasingLine)
  rw [Decimal.toRat_sub, Decimal.toRat_max] at hle hlt
  rw [price, Decimal.toRat_add]
  exact ⟨by linarith, by linarith⟩

/-- The value is what the points are worth, less what rounding takes. -/
theorem value_bounds (c : Config) (ratio slope : Decimal) (hx : 0 ≤ x.units) :
    (c.value ratio slope x).toRat ≤ c.worth ratio slope x.toRat ∧
      c.worth ratio slope x.toRat < (c.value ratio slope x).toRat + c.roundingLoss x := by
  have hpoints : 0 ≤ ((c.basicReward / 100 : ℕ) : ℚ) * x.toRat :=
    mul_nonneg (Nat.cast_nonneg _) (Decimal.toRat_nonneg_iff.mpr hx)
  obtain ⟨hle, hlt⟩ := c.toRat_price_bounds ratio slope x
  have hproduct := Decimal.toRat_mul_le (.ofNat (c.basicReward / 100) * x) (c.price ratio slope x)
  have hproductLt :=
    Decimal.toRat_mul_lt (.ofNat (c.basicReward / 100) * x) (c.price ratio slope x)
  rw [Decimal.toRat_ofNat_mul] at hproduct hproductLt
  constructor
  · exact hproduct.trans (mul_le_mul_of_nonneg_left hle hpoints)
  · calc
      c.worth ratio slope x.toRat
        ≤ (c.basicReward / 100 : ℕ) * x.toRat * ((c.price ratio slope x).toRat +
            1 / Decimal.scale) := mul_le_mul_of_nonneg_left hlt.le hpoints
      _ = (c.basicReward / 100 : ℕ) * x.toRat * (c.price ratio slope x).toRat +
            (c.basicReward / 100 : ℕ) * x.toRat / Decimal.scale := by ring
      _ < (c.value ratio slope x).toRat + c.roundingLoss x := by
          rw [value, roundingLoss]
          linarith

/-- Rounding can lower a value by no more than it takes. -/
theorem value_lt_of_worth_le (hx : 0 ≤ x.units) (hy : 0 ≤ y.units)
    (hworth : c.worth ratio slope x.toRat ≤ c.worth ratio slope y.toRat) :
    (c.value ratio slope x).toRat < (c.value ratio slope y).toRat + c.roundingLoss y :=
  ((c.value_bounds ratio slope hx).1.trans hworth).trans_lt (c.value_bounds ratio slope hy).2

/-- Points that are worth more than rounding takes do not lower the value. -/
theorem value_le_of_worth_add_le (hx : 0 ≤ x.units) (hy : 0 ≤ y.units)
    (hworth : c.worth ratio slope x.toRat + c.roundingLoss y ≤ c.worth ratio slope y.toRat) :
    c.value ratio slope x ≤ c.value ratio slope y := by
  have hle := (c.value_bounds ratio slope hx).1
  have hlt := (c.value_bounds ratio slope hy).2
  exact Decimal.toRat_le_iff.mp (by linarith)

/-- Up to the start of the line nothing is rounded in the price. -/
theorem value_le_of_le_start (hratio : 0 ≤ ratio.units) (hle : x ≤ y)
    (hstart : y ≤ c.curve.startOfDecreasingLine) :
    c.value ratio slope x ≤ c.value ratio slope y := by
  have hpoints : (.ofNat (c.basicReward / 100) * x : Decimal).toRat ≤
      (.ofNat (c.basicReward / 100) * y : Decimal).toRat := by
    rw [Decimal.toRat_ofNat_mul, Decimal.toRat_ofNat_mul]
    exact mul_le_mul_of_nonneg_left (Decimal.toRat_le_iff.mpr hle) (Nat.cast_nonneg _)
  rw [value, value, price_of_le_start hstart, price_of_le_start (Int.le_trans hle hstart)]
  refine Decimal.toRat_le_iff.mp (Decimal.toRat_le_toRat_mul_iff.mpr ?_)
  exact (Decimal.toRat_mul_le _ _).trans
    (mul_le_mul_of_nonneg_right hpoints (Decimal.toRat_nonneg_iff.mpr hratio))

theorem Tapers.value_le_of_same (h : c.Tapers round ratio slope) (hle : x ≤ y)
    (hsame : y ≤ c.curve.startOfDecreasingLine ∨ x = y) :
    c.value ratio slope x ≤ c.value ratio slope y := by
  rcases hsame with hstart | rfl
  · exact value_le_of_le_start h.ratio_nonneg hle hstart
  · exact Int.le_refl _

end Worth

section Marginal

variable {x y : ℚ}

/-- Further points add at least the marginal price each. -/
theorem worth_add_le (c : Config) (ratio : Decimal) (hslope : slope.toRat ≤ 0) (hy : 0 ≤ y)
    (hle : x ≤ y) :
    c.worth ratio slope x +
        (c.basicReward / 100 : ℕ) * ((y - x) * c.marginalPrice ratio slope x y) ≤
      c.worth ratio slope y := by
  unfold worth marginalPrice
  generalize c.curve.startOfDecreasingLine.toRat = start
  generalize ratio.toRat = ratio
  generalize slope.toRat = slope at *
  rw [mul_assoc, mul_assoc, ← mul_add]
  refine mul_le_mul_of_nonneg_left ?_ (Nat.cast_nonneg _)
  have hfall : slope * y ≤ 0 := mul_nonpos_of_nonpos_of_nonneg hslope hy
  rcases le_total x start with hx | hx
  · rw [max_eq_right hx]
    rcases le_total y start with hystart | hystart
    · rw [max_eq_right hystart]
      linarith [mul_nonpos_of_nonneg_of_nonpos (sub_nonneg.mpr hle) hfall]
    · -- only the points past the start lower the price
      rw [max_eq_left hystart]
      linarith [mul_nonpos_of_nonneg_of_nonpos (sub_nonneg.mpr hx) hfall]
  · rw [max_eq_left hx, max_eq_left (hx.trans hle)]
    exact le_of_eq (by ring)

/-- On the line they add exactly that. -/
theorem worth_eq_of_start_le (c : Config) (ratio slope : Decimal)
    (hx : c.curve.startOfDecreasingLine.toRat ≤ x) (hle : x ≤ y) :
    c.worth ratio slope y = c.worth ratio slope x +
      (c.basicReward / 100 : ℕ) * ((y - x) * c.marginalPrice ratio slope x y) := by
  rw [worth, worth, marginalPrice, max_eq_left hx, max_eq_left (hx.trans hle)]
  ring

end Marginal

section Growth

variable {x y gap : Decimal} {least : ℚ}

/-- As long as further points are worth something, the value falls by rounding only. -/
theorem value_lt_of_marginalPrice (hslope : slope.toRat ≤ 0) (hx : 0 ≤ x.units) (hle : x ≤ y)
    (hprice : 0 ≤ c.marginalPrice ratio slope x.toRat y.toRat) :
    (c.value ratio slope x).toRat < (c.value ratio slope y).toRat + c.roundingLoss y := by
  have hy := Int.le_trans hx hle
  have hle := Decimal.toRat_le_iff.mpr hle
  have hworth := c.worth_add_le ratio hslope (Decimal.toRat_nonneg_iff.mpr hy) hle
  have hgain : 0 ≤ ((c.basicReward / 100 : ℕ) : ℚ) *
      ((y.toRat - x.toRat) * c.marginalPrice ratio slope x.toRat y.toRat) :=
    mul_nonneg (Nat.cast_nonneg _) (mul_nonneg (sub_nonneg.mpr hle) hprice)
  exact value_lt_of_worth_le hx hy (by linarith)

/-- Enough further points make up for the rounding. -/
theorem value_le_of_gap (hslope : slope.toRat ≤ 0) (hx : 0 ≤ x.units) (hgap : 0 ≤ gap.units)
    (hle : x + gap ≤ y) (hleast : 0 ≤ least)
    (hprice : least ≤ c.marginalPrice ratio slope x.toRat y.toRat)
    (hloss : c.roundingLoss y ≤ (c.basicReward / 100 : ℕ) * (gap.toRat * least)) :
    c.value ratio slope x ≤ c.value ratio slope y := by
  have hxy : x.units ≤ y.units := Int.le_trans (Int.le_add_of_nonneg_right hgap) hle
  have hy := hx.trans hxy
  have hle := Decimal.toRat_le_iff.mpr hle
  rw [Decimal.toRat_add] at hle
  have hworth := c.worth_add_le ratio hslope (Decimal.toRat_nonneg_iff.mpr hy)
    (Decimal.toRat_le_iff.mpr hxy)
  have hgain : (c.basicReward / 100 : ℕ) * (gap.toRat * least) ≤ ((c.basicReward / 100 : ℕ) : ℚ) *
      ((y.toRat - x.toRat) * c.marginalPrice ratio slope x.toRat y.toRat) :=
    mul_le_mul_of_nonneg_left (mul_le_mul (by linarith) hprice hleast
      (by linarith [Decimal.toRat_nonneg_iff.mpr hgap])) (Nat.cast_nonneg _)
  exact value_le_of_worth_add_le hx hy (by linarith)

/-- Once further points cost something, the value grows by rounding only. -/
theorem value_lt_of_marginalPrice_nonpos
    (hx : 0 ≤ x.units) (hstart : c.curve.startOfDecreasingLine.toRat ≤ x.toRat) (hle : x ≤ y)
    (hprice : c.marginalPrice ratio slope x.toRat y.toRat ≤ 0) :
    (c.value ratio slope y).toRat < (c.value ratio slope x).toRat + c.roundingLoss x := by
  have hy := Int.le_trans hx hle
  have hle := Decimal.toRat_le_iff.mpr hle
  have hworth := c.worth_eq_of_start_le ratio slope hstart hle
  have hgain : ((c.basicReward / 100 : ℕ) : ℚ) *
      ((y.toRat - x.toRat) * c.marginalPrice ratio slope x.toRat y.toRat) ≤ 0 :=
    mul_nonpos_of_nonneg_of_nonpos (Nat.cast_nonneg _)
      (mul_nonpos_of_nonneg_of_nonpos (sub_nonneg.mpr hle) hprice)
  exact value_lt_of_worth_le hy hx (by linarith)

end Growth

/-! ## The reward of a block -/

theorem Tapers.totalReward_eq_value (h : c.Tapers (c.roundOf block) ratio slope)
    (hdifficulty : difficulty.isNegative = false) (hscore : score.isNegative = false) :
    c.totalReward block difficulty score = .ok (c.value ratio slope
      (c.paidPoints (c.roundOf block) (max difficulty .one) score)) := by
  have hpos := lt_of_lt_of_le Decimal.scale_pos (le_units_max_one difficulty)
  rw [totalReward_eq hdifficulty hscore h.ratio_eq h.slope_eq]
  split
  · rename_i hzero
    have hquotient : score.quotient (max difficulty .one) * .ofNat 100 = .zero := by
      refine congrArg Decimal.mk ?_
      simp [Decimal.quotient, Decimal.isZero_iff.mp hzero]
    have hpoints : c.paidPoints (c.roundOf block) (max difficulty .one) score = .zero := by
      rw [paidPoints, hquotient]
      exact if_pos h.start_nonneg
    rw [hpoints, value]
    refine congrArg Except.ok (congrArg Decimal.mk ?_)
    simp
  · rw [curveValue_eq_value h hpos]

theorem roundOf_of_isFlat (hflat : c.isFlat block = true) : c.roundOf block = c.flatScoreRound := by
  by_contra hne
  rw [isFlat, indexOfRound, if_pos hne] at hflat
  simp at hflat

/-- The flat reward does not depend on the score, except that there is none without. -/
theorem Tapers.blockReward_of_isFlat (h : c.Tapers (c.roundOf block) ratio slope)
    (hflat : c.isFlat block = true) (hless : less.isNegative = false) (hle : less ≤ more) :
    ∃ r₁ r₂, c.blockReward block less difficulty = .ok r₁ ∧
      c.blockReward block more difficulty = .ok r₂ ∧ r₁ ≤ r₂ := by
  obtain ⟨r, hr, hnonneg, -⟩ : ∃ r, c.totalReward block .one .one = .ok r ∧ 0 ≤ r.toRat ∧
    r.toRat ≤ c.tariff (c.roundOf block) ratio (max .one .one) .one := h.totalReward_bounds rfl rfl
  have hreward (score : Decimal) :
      c.blockReward block score difficulty = .ok (if score.isZero then .zero else r) := by
    rw [blockReward, if_pos hflat, hr]
    split <;> rfl
  refine ⟨_, _, hreward less, hreward more, ?_⟩
  have hnonneg := Decimal.toRat_nonneg_iff.mp hnonneg
  split
  · split
    · exact le_refl (0 : ℤ)
    · exact hnonneg
  · rename_i hpositive
    rw [Decimal.isZero_iff] at hpositive
    rw [Decimal.isNegative_eq_false_iff] at hless
    rw [Decimal.le_iff] at hle
    rw [if_neg (by rw [Decimal.isZero_iff]; omega)]
    exact le_refl r.units

theorem Tapers.blockReward_eq_value (h : c.Tapers (c.roundOf block) ratio slope)
    (hflat : c.isFlat block = false) (hdifficulty : difficulty.isNegative = false)
    (hscore : score.isNegative = false) : c.blockReward block score difficulty =
      .ok (c.value ratio slope (c.paidPoints (c.roundOf block) (max difficulty .one) score)) := by
  rw [← h.totalReward_eq_value hdifficulty hscore, blockReward, if_neg (Bool.eq_false_iff.mp hflat)]
  split
  · rename_i hzero
    rw [totalReward_eq hdifficulty hscore h.ratio_eq h.slope_eq, if_pos hzero]
  · rfl

/-! ## Another endorsement -/

/-- An endorsement that is not earlier than all others leaves their weights as they are. -/
theorem score_le_score_append (hweights : ∀ w ∈ c.relativeScoreLookupTable, w.isNegative = false)
    (es : List (ℕ × Endorsement)) {x : ℕ × Endorsement} (hx : es = [] ∨ ∃ y ∈ es, y.1 ≤ x.1) :
    c.score (.ofList es) ≤ c.score (.ofList (es ++ [x])) := by
  rcases hx with rfl | ⟨y, hy, hyx⟩
  · exact score_nonneg hweights _
  · have hmin : ((es ++ [x]).map (·.1)).min? = (es.map (·.1)).min? := by
      obtain ⟨lowest, hlowest⟩ := Option.isSome_iff_exists.mp
        (List.isSome_min?_of_mem (List.mem_map_of_mem hy : y.1 ∈ es.map (·.1)))
      obtain ⟨hmem, hleast⟩ := List.min?_eq_some_iff.mp hlowest
      rw [hlowest, List.min?_eq_some_iff, List.map_append]
      refine ⟨List.mem_append_left _ hmem, fun height hheight ↦ ?_⟩
      rcases List.mem_append.mp hheight with hheight | hheight
      · exact hleast height hheight
      · rw [List.mem_singleton.mp hheight]
        exact (hleast y.1 (List.mem_map_of_mem hy)).trans hyx
    have hweight (height : ℕ) : c.weightAt (es ++ [x]) height = c.weightAt es height := by
      rw [weightAt, weightAt, hmin]
    rw [Decimal.le_iff, units_score, units_score, List.map_append, List.sum_append]
    simp only [hweight, List.map_cons, List.map_nil, List.sum_singleton]
    exact Int.le_add_of_nonneg_right (weightAt_nonneg hweights es x.1)

/-! ## The standard configuration -/

section Standard

theorem tapers_standard_normal (hround : round ≤ 2) : ∃ ratio slope,
    Config.standard.Tapers round ratio slope ∧
      97 / 100 ≤ ratio.toRat ∧ slope.toRat = -ratio.toRat / 500 := by
  interval_cases round
  · exact ⟨⟨97000000⟩, ⟨-194000⟩, ⟨rfl, rfl, by decide, by decide, by decide, by decide⟩,
      by norm_num [Decimal.toRat, Decimal.scale], by norm_num [Decimal.toRat, Decimal.scale]⟩
  · exact ⟨⟨103000000⟩, ⟨-206000⟩, ⟨rfl, rfl, by decide, by decide, by decide, by decide⟩,
      by norm_num [Decimal.toRat, Decimal.scale], by norm_num [Decimal.toRat, Decimal.scale]⟩
  · exact ⟨⟨107000000⟩, ⟨-214000⟩, ⟨rfl, rfl, by decide, by decide, by decide, by decide⟩,
      by norm_num [Decimal.toRat, Decimal.scale], by norm_num [Decimal.toRat, Decimal.scale]⟩

theorem tapers_standard_keystone : Config.standard.Tapers 3 (.ofNat 3) ⟨-642858⟩ :=
  ⟨rfl, rfl, by decide, by decide, by decide, by decide⟩

theorem toRat_mk (units : ℤ) : (⟨units⟩ : Decimal).toRat = units / 100000000 := rfl

theorem toRat_start_standard : Config.standard.curve.startOfDecreasingLine.toRat = 100 :=
  Decimal.toRat_ofNat 100

theorem budget_standard : Config.standard.basicReward / 100 = 40000000 := rfl

theorem roundingLoss_standard (x : Decimal) :
    Config.standard.roundingLoss x = 2 / 5 * x.toRat + 1 / 100000000 := by
  rw [roundingLoss, budget_standard, Decimal.scale]
  push_cast
  ring

section Lines

variable {x y sum : ℚ}

/-- In the normal rounds the line is short and flat enough for each further point to be worth
something. -/
theorem marginalPrice_normal (hratio : 97 / 100 ≤ ratio.toRat)
    (hslope : slope.toRat = -ratio.toRat / 500) (hx : x ≤ 200) (hy : y ≤ 200) :
    388 / 1000 ≤ Config.standard.marginalPrice ratio slope x y := by
  have hmax : max x 100 ≤ 200 := max_le hx (by norm_num)
  rw [marginalPrice, toRat_start_standard, hslope]
  calc
    (388 / 1000 : ℚ) = 97 / 100 * (2 / 5) := by norm_num
    _ ≤ ratio.toRat * (1 - (max x 100 + y - 100) / 500) :=
        mul_le_mul hratio (by linarith) (by norm_num) (by linarith)
    _ = ratio.toRat + -ratio.toRat / 500 * (max x 100 + y - 100) := by ring

theorem marginalPrice_keystone (x y : ℚ) :
    Config.standard.marginalPrice (.ofNat 3) ⟨-642858⟩ x y =
      3 - 642858 / 100000000 * (max x 100 + y - 100) := by
  rw [marginalPrice, toRat_start_standard, Decimal.toRat_ofNat, toRat_mk]
  push_cast
  ring

/-- In the keystone round the line is so long that the last points cost more than they bring: the
sum of the points decides. -/
theorem le_marginalPrice_keystone (hy : y ≤ 300) (hsum : x + y ≤ sum) (hlong : 400 ≤ sum) :
    3 - 642858 / 100000000 * (sum - 100) ≤
      Config.standard.marginalPrice (.ofNat 3) ⟨-642858⟩ x y := by
  have hmax : max x 100 + y ≤ sum := by
    rcases le_total x 100 with hx | hx
    · rw [max_eq_right hx]
      linarith
    · rwa [max_eq_left hx]
  rw [marginalPrice_keystone]
  linarith

end Lines

variable {x y : Decimal}

/-- In a normal round the value of the points grows but for the rounding. -/
theorem value_normal (hratio : 97 / 100 ≤ ratio.toRat) (hslope : slope.toRat = -ratio.toRat / 500)
    (hx : 0 ≤ x.units) (hle : x ≤ y) (hy : y ≤ .ofNat 200) :
    (Config.standard.value ratio slope x).toRat <
        (Config.standard.value ratio slope y).toRat + (2 / 5 * y.toRat + 1 / 100000000) ∧
      (x + ⟨516⟩ ≤ y →
        Config.standard.value ratio slope x ≤ Config.standard.value ratio slope y) := by
  have hthreshold := Decimal.toRat_le_iff.mpr hy
  rw [Decimal.toRat_ofNat] at hthreshold
  have hprice := marginalPrice_normal hratio hslope
    ((Decimal.toRat_le_iff.mpr hle).trans hthreshold) hthreshold
  have hfall : slope.toRat ≤ 0 := by linarith
  constructor
  · rw [← roundingLoss_standard]
    exact value_lt_of_marginalPrice hfall hx hle (by linarith)
  · intro hgap
    refine value_le_of_gap hfall hx (by decide) hgap (by norm_num) hprice ?_
    rw [roundingLoss_standard, toRat_mk 516, budget_standard]
    push_cast at hthreshold ⊢
    linarith

/-- In the keystone round it does up to a mean of 283.33302222 points, where it turns. -/
theorem value_keystone (hx : 0 ≤ x.units) (hle : x ≤ y) (hy : y ≤ .ofNat 300) :
    (x + y ≤ ⟨56666604444⟩ → (Config.standard.value (.ofNat 3) ⟨-642858⟩ x).toRat <
      (Config.standard.value (.ofNat 3) ⟨-642858⟩ y).toRat +
        (2 / 5 * y.toRat + 1 / 100000000)) ∧
    (x + y ≤ .ofNat 560 → x + ⟨7001⟩ ≤ y →
      Config.standard.value (.ofNat 3) ⟨-642858⟩ x ≤
        Config.standard.value (.ofNat 3) ⟨-642858⟩ y) ∧
    (⟨56666604444⟩ < x + y → (Config.standard.value (.ofNat 3) ⟨-642858⟩ y).toRat <
      (Config.standard.value (.ofNat 3) ⟨-642858⟩ x).toRat +
        (2 / 5 * x.toRat + 1 / 100000000)) := by
  have hthreshold := Decimal.toRat_le_iff.mpr hy
  rw [Decimal.toRat_ofNat] at hthreshold
  push_cast at hthreshold
  have hfall : (⟨-642858⟩ : Decimal).toRat ≤ 0 := by
    rw [toRat_mk]
    norm_num
  have hsum (units : ℤ) (hle : x + y ≤ ⟨units⟩) : x.toRat + y.toRat ≤ units / 100000000 := by
    rwa [← toRat_mk, ← Decimal.toRat_add, Decimal.toRat_le_iff, ← Decimal.le_iff]
  refine ⟨fun hgrows ↦ ?_, fun hgrows hgap ↦ ?_, fun hfalls ↦ ?_⟩
  · have hprice := le_marginalPrice_keystone hthreshold (hsum _ hgrows) (by norm_num)
    rw [← roundingLoss_standard]
    exact value_lt_of_marginalPrice hfall hx hle (le_trans (by norm_num) hprice)
  · have hprice := le_marginalPrice_keystone hthreshold (hsum 56000000000 hgrows) (by norm_num)
    refine value_le_of_gap hfall hx (by decide) hgap (by norm_num) hprice ?_
    rw [roundingLoss_standard, toRat_mk 7001, budget_standard]
    push_cast
    linarith
  · have hsum : (⟨56666604445⟩ : Decimal).toRat ≤ (x + y).toRat :=
      Decimal.toRat_le_iff.mpr (Int.add_one_le_of_lt hfalls)
    rw [Decimal.toRat_add, toRat_mk 56666604445] at hsum
    push_cast at hsum
    -- no sum is that large unless both are on the line
    have hstart : 100 ≤ x.toRat := by linarith
    rw [← roundingLoss_standard]
    refine value_lt_of_marginalPrice_nonpos hx ?_ hle ?_
    · rwa [toRat_start_standard]
    · rw [marginalPrice_keystone, max_eq_left hstart]
      linarith

end Standard

/-- With the standard configuration, the reward of a block grows with its score but for the rounding
of its price, except in the keystone round past a mean of 283.33302222 paid points.  Rounding plays
no part in flat rewards, nor up to the start of the decreasing line, nor where the points are far
enough apart: 0.00000516 in a normal round, and 0.00007001 in the keystone round up to a mean of
280.  The score itself grows with each endorsement that is not earlier than all others. -/
theorem standard_reward_grows (block : ℕ) (difficulty less more : Decimal)
    (hdifficulty : difficulty.isNegative = false) (hless : less.isNegative = false)
    (hle : less ≤ more) :
    (∃ r₁ r₂, Config.standard.blockReward block less difficulty = .ok r₁ ∧
      Config.standard.blockReward block more difficulty = .ok r₂ ∧
      let points := Config.standard.paidPoints (Config.standard.roundOf block) (max difficulty .one)
      let x := points less
      let y := points more
      x ≤ y ∧
      (Config.standard.isFlat block = true ∨ y ≤ .ofNat 100 ∨ x = y → r₁ ≤ r₂) ∧
      (Config.standard.isKeystoneHeight block = false →
        r₁.toRat < r₂.toRat + (2 / 5 * y.toRat + 1 / 100000000) ∧ (x + ⟨516⟩ ≤ y → r₁ ≤ r₂)) ∧
      (Config.standard.isKeystoneHeight block = true →
        (x + y ≤ ⟨56666604444⟩ → r₁.toRat < r₂.toRat + (2 / 5 * y.toRat + 1 / 100000000)) ∧
        (x + y ≤ .ofNat 560 → x + ⟨7001⟩ ≤ y → r₁ ≤ r₂) ∧
        (⟨56666604444⟩ < x + y → r₂.toRat < r₁.toRat + (2 / 5 * x.toRat + 1 / 100000000)))) ∧
    ∀ (es : List (ℕ × Endorsement)) (x : ℕ × Endorsement), (es = [] ∨ ∃ y ∈ es, y.1 ≤ x.1) →
      Config.standard.score (.ofList es) ≤ Config.standard.score (.ofList (es ++ [x])) := by
  refine ⟨?_, fun es x ↦ score_le_score_append (by decide) es⟩
  have hmore : more.isNegative = false := Decimal.isNegative_eq_false_iff.mpr
    (Int.le_trans (Decimal.isNegative_eq_false_iff.mp hless) hle)
  have hpos := lt_of_lt_of_le Decimal.scale_pos (le_units_max_one difficulty)
  have hround : Config.standard.roundOf block ≤ 3 := Config.standard.roundOf_le_highestRound block
  cases hkeystone : Config.standard.isKeystoneHeight block with
  | false =>
    have hthreshold : Config.standard.maxRewardThreshold (Config.standard.roundOf block) =
        .ofNat 200 := if_neg (Bool.eq_false_iff.mp hkeystone)
    have hne : Config.standard.roundOf block ≠ 3 := beq_eq_false_iff_ne.mp hkeystone
    obtain ⟨ratio, slope, htapers, hratio, hslope⟩ :=
      tapers_standard_normal (Nat.le_of_lt_succ (lt_of_le_of_ne hround hne))
    have hx := paidPoints_bounds htapers hpos (Decimal.isNegative_eq_false_iff.mp hless)
    have hy := paidPoints_bounds htapers hpos (Decimal.isNegative_eq_false_iff.mp hmore)
    have hxy := paidPoints_mono htapers hpos hle
    rw [hthreshold] at hy
    cases hflat : Config.standard.isFlat block with
    | true =>
      obtain ⟨r₁, r₂, hr₁, hr₂, hrewards⟩ := htapers.blockReward_of_isFlat hflat hless hle
      refine ⟨r₁, r₂, hr₁, hr₂, hxy, fun _ ↦ hrewards, fun _ ↦ ⟨?_, fun _ ↦ hrewards⟩, nofun⟩
      linarith [Decimal.toRat_le_iff.mpr hrewards, Decimal.toRat_nonneg_iff.mpr hy.1]
    | false =>
      obtain ⟨hloss, hgap⟩ := value_normal hratio hslope hx.1 hxy hy.2
      exact ⟨_, _, htapers.blockReward_eq_value hflat hdifficulty hless,
        htapers.blockReward_eq_value hflat hdifficulty hmore, hxy,
        fun hsame ↦ htapers.value_le_of_same hxy (hsame.resolve_left nofun),
        fun _ ↦ ⟨hloss, hgap⟩, nofun⟩
  | true =>
    have hthree : Config.standard.roundOf block = 3 := beq_iff_eq.mp hkeystone
    have hflat : Config.standard.isFlat block = false := by
      refine Bool.eq_false_iff.mpr fun hflat ↦ ?_
      have htwo := roundOf_of_isFlat hflat
      rw [hthree] at htwo
      cases htwo
    have htapers : Config.standard.Tapers (Config.standard.roundOf block) (.ofNat 3) ⟨-642858⟩ := by
      rw [hthree]
      exact tapers_standard_keystone
    have hthreshold : Config.standard.maxRewardThreshold (Config.standard.roundOf block) =
        .ofNat 300 := if_pos hkeystone
    have hx := paidPoints_bounds htapers hpos (Decimal.isNegative_eq_false_iff.mp hless)
    have hy := paidPoints_bounds htapers hpos (Decimal.isNegative_eq_false_iff.mp hmore)
    have hxy := paidPoints_mono htapers hpos hle
    rw [hthreshold] at hy
    rw [hflat]
    exact ⟨_, _, htapers.blockReward_eq_value hflat hdifficulty hless,
      htapers.blockReward_eq_value hflat hdifficulty hmore, hxy,
      fun hsame ↦ htapers.value_le_of_same hxy (hsame.resolve_left nofun), nofun,
      fun _ ↦ value_keystone hx.1 hxy hy.2⟩

/-- Half as much again on a normal block, and the last points of a keystone. -/
theorem standard_rewards_compared :
    (∃ r₁ r₂, Config.standard.blockReward 21 .one .one = .ok r₁ ∧
      Config.standard.blockReward 21 ⟨150000000⟩ .one = .ok r₂ ∧ r₁ ≤ r₂) ∧
    ∃ r₁ r₂, Config.standard.blockReward 40 ⟨284000000⟩ .one = .ok r₁ ∧
      Config.standard.blockReward 40 (.ofNat 3) .one = .ok r₂ ∧
      r₂.toRat < r₁.toRat + 1136 / 10 + 1 / 100000000 := by
  obtain ⟨⟨r₁, r₂, hr₁, hr₂, -, -, hnormal, -⟩, -⟩ :=
    standard_reward_grows 21 .one .one ⟨150000000⟩ rfl rfl (by decide)
  obtain ⟨⟨q₁, q₂, hq₁, hq₂, -, -, -, hkeystone⟩, -⟩ :=
    standard_reward_grows 40 .one ⟨284000000⟩ (.ofNat 3) rfl rfl (by decide)
  refine ⟨⟨r₁, r₂, hr₁, hr₂, (hnormal rfl).2 (by decide)⟩, q₁, q₂, hq₁, hq₂, ?_⟩
  have hfall := (hkeystone rfl).2.2 (by decide)
  have hpoints : Config.standard.paidPoints (Config.standard.roundOf 40)
      (max Decimal.one Decimal.one) ⟨284000000⟩ = .ofNat 284 := by decide
  rw [hpoints, Decimal.toRat_ofNat] at hfall
  push_cast at hfall
  linarith

/-- The last points of a keystone cost more than they bring, and a few points more on the line can
bring less than their rounding takes.  An endorsement that is much earlier than the others leaves
them without weight. -/
theorem higher_scores_are_paid_less :
    (∃ r₁ r₂, Config.standard.blockReward 40 ⟨284000000⟩ .one = .ok r₁ ∧
      Config.standard.blockReward 40 (.ofNat 3) .one = .ok r₂ ∧ r₂ < r₁) ∧
    (∃ r₁ r₂, Config.standard.blockReward 21 .one .one = .ok r₁ ∧
      Config.standard.blockReward 21 ⟨100000001⟩ .one = .ok r₂ ∧ r₂ < r₁) ∧
    ∃ (es : List (ℕ × Endorsement)) (x : ℕ × Endorsement) (r₁ r₂ : Decimal),
      Config.standard.blockReward 21 (Config.standard.score (.ofList es)) .one = .ok r₁ ∧
      Config.standard.blockReward 21 (Config.standard.score (.ofList (es ++ [x]))) .one = .ok r₂ ∧
      r₂ < r₁ := by
  refine ⟨⟨⟨2064272494080000000⟩, .ofNat 20571408000, ?_⟩,
    ⟨.ofNat 3880000000, ⟨387999999879999960⟩, ?_⟩,
    [(100, ⟨"V1", "aa"⟩), (100, ⟨"V2", "bb"⟩)], (0, ⟨"V3", "cc"⟩),
    .ofNat 6208000000, .ofNat 3880000000, ?_⟩
  all_goals decide

end EndorsedChain.Reward.Config
