import EndorsedChain.Reward.Error
import EndorsedChain.Reward.Round

/-!
# The reward of a block

The reward grows with the score of the endorsements relative to the difficulty. Past the start of
the decreasing line each further point of score pays less, and past a threshold none pays at all.
-/

namespace EndorsedChain.Reward.Config

def ratio (c : Config) (round : Nat) : Except Error Decimal :=
  match c.roundRatios[round]? with
  | some ratio => .ok ratio
  | none => .error (.argument (.noRatio round))

def maxRewardThreshold (c : Config) (round : Nat) : Decimal :=
  if c.isKeystoneRound round then c.maxRewardThresholdKeystone else c.maxRewardThresholdNormal

/-- The fraction that is paid at the end of the decreasing line, and the width of the line. -/
def decreasingLine (c : Config) (round : Nat) : Decimal × Decimal :=
  if c.isKeystoneRound round then
    (c.curve.aboveIntendedPayoutMultiplierKeystone, c.curve.widthOfDecreasingLineKeystone)
  else (c.curve.aboveIntendedPayoutMultiplierNormal, c.curve.widthOfDecreasingLineNormal)

def slope (c : Config) (round : Nat) : Except Error Decimal := do
  let (multiplier, width) := c.decreasingLine round
  let ratio ← c.ratio round
  match (multiplier * ratio - ratio).div? width with
  | some slope => return slope
  | none => throw (.config .zeroWidth)

/-- The reward for a positive score at a difficulty of at least one. -/
def curveReward (c : Config) (round : Nat) (difficulty score : Decimal) :
    Except Error Decimal := do
  let divide := fun (a : Decimal) =>
    match a.div? difficulty with
    | some quotient => Except.ok quotient
    | none => .error (Error.invariant .zeroDifficulty)
  let ratio ← c.ratio round
  let hundred := Decimal.ofNat 100
  let budget := Decimal.ofNat (c.basicReward / 100)
  let scoreToDifficulty ← divide score
  let normalizedScore ← divide (score * hundred)
  let start := c.curve.startOfDecreasingLine
  if scoreToDifficulty * hundred ≤ start then
    return budget * scoreToDifficulty * hundred * ratio
  else
    let chopped := min normalizedScore (c.maxRewardThreshold round)
    let slope ← c.slope round
    let perPoint := slope * (chopped - start) + ratio
    return budget * chopped * perPoint

/-- The reward of a block before the flat rule. -/
def totalReward (c : Config) (block : Nat) (difficulty score : Decimal) :
    Except Error Decimal :=
  if difficulty.isNegative then .error (.argument (.negativeDifficulty difficulty))
  else if score.isNegative then .error (.argument (.negativeScore score))
  else if score.isZero then .ok .zero
  else c.curveReward (c.roundOf block) (max difficulty .one) score

/-- The reward of a block. -/
def blockReward (c : Config) (block : Nat) (score difficulty : Decimal) :
    Except Error Decimal :=
  if score.isZero then .ok .zero
  else if c.isFlat block then c.totalReward block .one .one
  else c.totalReward block difficulty score

end EndorsedChain.Reward.Config
