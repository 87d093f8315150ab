import EndorsedChain.Proofs.Reward.Decimal
import EndorsedChain.Reward.Payout

/-!
# Checked configurations

The check of a configuration predicts the highest round of any block, and each round up to it has a
ratio and a slope.  The difficulty that rewards are divided by is at least one.  So the reward of a
block is refused for a negative difficulty or score only (`totalReward_eq_error_iff`), and nothing
else that is computed fails through the fault of a checked configuration.
-/

namespace EndorsedChain.Reward

/-! ## Faults -/

/-- Errors that a configuration is to blame for: a ratio that is missing, and a division by zero. -/
def Error.Misconfigured : Error → Prop
  | .config _ | .argument (.noRatio _) | .invariant .zeroDifficulty | .invariant .zeroScore => True
  | _ => False

/-- Fails, if at all, for another reason than a bad configuration. -/
def Blameless {α : Type} (result : Except Error α) : Prop :=
  ∀ e, result = .error e → ¬e.Misconfigured

section Blameless

variable {α β : Type} {result : Except Error α} {f : α → Except Error β}

theorem Blameless.ok (a : α) : Blameless (.ok a) := fun _ h ↦ by cases h

theorem Blameless.error {e : Error} (he : ¬e.Misconfigured) :
    Blameless (.error e : Except Error α) := fun _ h ↦ Except.error.inj h ▸ he

theorem Blameless.bind (hresult : Blameless result) (hf : ∀ a, Blameless (f a)) :
    Blameless (result >>= f) := by
  cases result with
  | error e => exact fun _ h ↦ hresult _ (congrArg _ (Except.error.inj h))
  | ok a => exact hf a

end Blameless

namespace Config

variable {c : Config} {block round : ℕ} {difficulty score ratio slope : Decimal}

/-! ## What the check asks for -/

/-- What a configuration that passes its check provides. -/
structure Checked (c : Config) : Prop where
  interval_ne : c.keystoneInterval ≠ 0
  highest_lt : c.highestRound < c.roundRatios.length
  normal_ne : c.curve.widthOfDecreasingLineNormal.isZero = false
  keystone_ne : c.curve.widthOfDecreasingLineKeystone.isZero = false

theorem checked_of_check (h : c.check = .ok ()) : c.Checked := by
  unfold check at h
  split at h
  · cases h
  · split at h
    · cases h
    · split at h
      · cases h
      · rename_i hinterval hratios hwidths
        rw [Bool.or_eq_true, not_or, Bool.not_eq_true, Bool.not_eq_true] at hwidths
        exact ⟨hinterval, Nat.lt_of_not_le hratios, hwidths.1, hwidths.2⟩

/-- The highest round is predicted correctly, for any number of rounds. -/
theorem roundOf_le_highestRound (c : Config) (block : ℕ) : c.roundOf block ≤ c.highestRound := by
  unfold roundOf highestRound
  split
  · exact Nat.le_max_left ..
  · split
    · exact Nat.zero_le _
    · rename_i hrounds
      have hlt : (block - 1) % c.keystoneInterval % (c.payoutRounds - 1) < c.payoutRounds - 1 :=
        Nat.mod_lt _ (by omega)
      omega

theorem Checked.exists_ratio (h : c.Checked) (hle : round ≤ c.highestRound) :
    ∃ ratio, c.ratio round = .ok ratio := by
  have hlt := Nat.lt_of_le_of_lt hle h.highest_lt
  exact ⟨c.roundRatios[round], by rw [ratio, List.getElem?_eq_getElem hlt]⟩

theorem Checked.width_ne (h : c.Checked) (round : ℕ) :
    (c.decreasingLine round).2.isZero = false := by
  unfold decreasingLine
  split
  · exact h.keystone_ne
  · exact h.normal_ne

theorem Checked.exists_slope (h : c.Checked) (hratio : c.ratio round = .ok ratio) :
    ∃ slope, c.slope round = .ok slope := by
  have hwidth := h.width_ne round
  have hdiv : ∃ slope, ((c.decreasingLine round).1 * ratio - ratio).div?
      (c.decreasingLine round).2 = some slope :=
    ⟨_, if_neg (Bool.eq_false_iff.mp hwidth)⟩
  obtain ⟨slope, hslope⟩ := hdiv
  refine ⟨slope, ?_⟩
  unfold Config.slope
  simp only [hratio, bind, Except.bind, hslope]
  rfl

/-! ## The reward of a block -/

/-- The reward on the curve.  Up to the start of the decreasing line it is the score in proportion
to the difficulty, and from there on the price of each point falls. -/
def curveValue (c : Config) (round : ℕ) (ratio slope difficulty score : Decimal) : Decimal :=
  let budget := Decimal.ofNat (c.basicReward / 100)
  let start := c.curve.startOfDecreasingLine
  if score.quotient difficulty * .ofNat 100 ≤ start then
    budget * score.quotient difficulty * .ofNat 100 * ratio
  else
    let chopped := min ((score * .ofNat 100).quotient difficulty) (c.maxRewardThreshold round)
    budget * chopped * (slope * (chopped - start) + ratio)

theorem curveReward_eq (hratio : c.ratio round = .ok ratio) (hslope : c.slope round = .ok slope)
    (hdifficulty : 0 < difficulty.units) : c.curveReward round difficulty score =
      .ok (c.curveValue round ratio slope difficulty score) := by
  unfold curveReward curveValue
  simp only [hratio, hslope, Decimal.div?_eq_quotient hdifficulty, bind, Except.bind, pure,
    Except.pure]
  split <;> rfl

theorem le_units_max_one (difficulty : Decimal) :
    Decimal.scale ≤ (max difficulty .one).units := le_max_right _ _

/-- The reward for a score and a difficulty that are not negative. -/
theorem totalReward_eq (hdifficulty : difficulty.isNegative = false)
    (hscore : score.isNegative = false) (hratio : c.ratio (c.roundOf block) = .ok ratio)
    (hslope : c.slope (c.roundOf block) = .ok slope) :
    c.totalReward block difficulty score = .ok (if score.isZero then .zero
      else c.curveValue (c.roundOf block) ratio slope (max difficulty .one) score) := by
  have hpos := lt_of_lt_of_le Decimal.scale_pos (le_units_max_one difficulty)
  unfold totalReward
  rw [if_neg (Bool.eq_false_iff.mp hdifficulty),
    if_neg (Bool.eq_false_iff.mp hscore), curveReward_eq hratio hslope hpos]
  split <;> rfl

/-- A checked configuration refuses a negative difficulty, then a negative score, and nothing
else. -/
theorem Checked.totalReward_eq_error_iff (h : c.Checked) {e : Error} :
    c.totalReward block difficulty score = .error e ↔
      difficulty.isNegative = true ∧ e = .argument (.negativeDifficulty difficulty) ∨
      difficulty.isNegative = false ∧ score.isNegative = true ∧
        e = .argument (.negativeScore score) := by
  cases hdifficulty : difficulty.isNegative with
  | true =>
    have hrefused : c.totalReward block difficulty score =
        .error (.argument (.negativeDifficulty difficulty)) := if_pos hdifficulty
    rw [hrefused, Except.error.injEq, eq_comm]
    simp
  | false =>
    cases hscore : score.isNegative with
    | true =>
      have hrefused : c.totalReward block difficulty score =
          .error (.argument (.negativeScore score)) := by
        rw [totalReward, if_neg (Bool.eq_false_iff.mp hdifficulty), if_pos hscore]
      rw [hrefused, Except.error.injEq, eq_comm]
      simp
    | false =>
      obtain ⟨ratio, hratio⟩ := h.exists_ratio (c.roundOf_le_highestRound block)
      obtain ⟨slope, hslope⟩ := h.exists_slope hratio
      rw [totalReward_eq hdifficulty hscore hratio hslope]
      simp

theorem Checked.blameless_totalReward (h : c.Checked) (block : ℕ) (difficulty score : Decimal) :
    Blameless (c.totalReward block difficulty score) := by
  intro e he
  rcases h.totalReward_eq_error_iff.mp he with ⟨-, rfl⟩ | ⟨-, -, rfl⟩ <;> exact not_false

theorem Checked.blameless_blockReward (h : c.Checked) (block : ℕ) (score difficulty : Decimal) :
    Blameless (c.blockReward block score difficulty) := by
  unfold blockReward
  split
  · exact .ok _
  · split
    · exact h.blameless_totalReward block .one .one
    · exact h.blameless_totalReward block difficulty score

/-! ## Payouts -/

section Payouts

variable {paid share : Amount} {es : List Endorsement} {groups : List (ℕ × List Endorsement)}
  {lowest : ℕ} {reward : Amount}

theorem blameless_payGroup : Blameless (payGroup share paid es) := by
  induction es generalizing paid with
  | nil => exact .ok _
  | cons e es ih =>
    unfold payGroup
    split
    · exact .ok _
    · refine Blameless.bind ?_ fun _ ↦ ih.bind fun _ ↦ .ok _
      cases paid.add share with
      | error e => exact .error not_false
      | ok sum => exact .ok _

theorem blameless_share (hscore : score.isZero = false) (weight : Decimal) :
    Blameless (Config.share reward score weight) := by
  unfold Config.share
  rw [Decimal.div?, if_neg (Bool.eq_false_iff.mp hscore)]
  dsimp only
  split
  · exact .error not_false
  · exact .ok _

theorem blameless_payGroups (hscore : score.isZero = false) :
    Blameless (c.payGroups reward score lowest paid groups) := by
  induction groups generalizing paid with
  | nil => exact .ok _
  | cons g groups ih =>
    unfold payGroups
    exact (blameless_share hscore _).bind fun _ ↦ blameless_payGroup.bind fun _ ↦
      ih.bind fun _ ↦ .ok _

theorem Checked.blameless_payout (h : c.Checked) (block : ℕ) (es : Endorsements)
    (difficulty : Decimal) : Blameless (c.payout block es difficulty) := by
  unfold payout
  refine (h.blameless_blockReward block _ difficulty).bind fun reward ↦ ?_
  cases reward.toUInt64? with
  | none => exact .error not_false
  | some units =>
    have hlimit (x : Amount × List Output) : Blameless (if (⟨units⟩ : Amount) < x.1 then
        throw (.invariant (.paidTooMuch x.1 ⟨units⟩)) else pure (Payout.mk ⟨units⟩ x.1 x.2)) := by
      split
      · exact .error not_false
      · exact .ok _
    cases es.lowest? with
    | none => exact (Blameless.ok _).bind hlimit
    | some lowest =>
      cases hscore : (c.score es).isZero with
      | true => exact (Blameless.ok _).bind hlimit
      | false => exact (blameless_payGroups hscore).bind hlimit

end Payouts

/-- With a configuration that passes its check, the round of each block has a ratio and a slope, and
its reward is refused exactly for a negative difficulty or score.  No payout fails for a missing
ratio or a division by zero either. -/
theorem check_suffices (h : c.check = .ok ()) (block : ℕ) :
    c.keystoneInterval ≠ 0 ∧
    (∃ ratio, c.ratio (c.roundOf block) = .ok ratio) ∧
    (∃ slope, c.slope (c.roundOf block) = .ok slope) ∧
    (∀ difficulty score,
      ((∃ e, c.totalReward block difficulty score = .error e) ↔
        difficulty.isNegative = true ∨ score.isNegative = true) ∧
      ∀ e, c.totalReward block difficulty score = .error e →
        e = .argument (.negativeDifficulty difficulty) ∨ e = .argument (.negativeScore score)) ∧
    ∀ es difficulty e, c.payout block es difficulty = .error e → ¬e.Misconfigured := by
  have hchecked := checked_of_check h
  obtain ⟨ratio, hratio⟩ := hchecked.exists_ratio (c.roundOf_le_highestRound block)
  refine ⟨hchecked.interval_ne, ⟨ratio, hratio⟩, hchecked.exists_slope hratio,
    fun difficulty score ↦ ⟨?_, fun e he ↦ ?_⟩, hchecked.blameless_payout block⟩
  · simp only [hchecked.totalReward_eq_error_iff]
    cases difficulty.isNegative <;> cases score.isNegative <;> simp
  · rcases hchecked.totalReward_eq_error_iff.mp he with ⟨-, rfl⟩ | ⟨-, -, rfl⟩
    · exact .inl rfl
    · exact .inr rfl

/-- Every block is in the keystone round, whose line has a negative width. -/
def singleRound : Config :=
  { Config.standard with
    keystoneInterval := 7
    keystoneRound := 0
    payoutRounds := 0
    roundRatios := [.one]
    curve := { Curve.standard with widthOfDecreasingLineKeystone := ⟨-1⟩ } }

/-- One ratio suffices for a single round, also between keystones. -/
theorem single_round_suffices : singleRound.check = .ok () ∧
    (∃ slope, singleRound.slope (singleRound.roundOf 5) = .ok slope) ∧
    ¬∃ e, singleRound.totalReward 5 .zero (.ofNat 2) = .error e := by
  obtain ⟨-, -, hslope, herror, -⟩ := check_suffices (c := singleRound) (by decide) 5
  refine ⟨by decide, hslope, ?_⟩
  rw [(herror .zero (.ofNat 2)).1]
  decide

end Config

end EndorsedChain.Reward
