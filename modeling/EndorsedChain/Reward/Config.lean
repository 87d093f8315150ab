import EndorsedChain.Reward.Decimal

/-! # The configuration of the rewards -/

namespace EndorsedChain.Reward

/-- The shape of the reward curve above the intended payout. -/
structure Curve where
  /-- The normalized score from which the reward per point decreases. -/
  startOfDecreasingLine : Decimal
  widthOfDecreasingLineNormal : Decimal
  widthOfDecreasingLineKeystone : Decimal
  /-- The fraction of the ratio of a round that is still paid at the end of the line. -/
  aboveIntendedPayoutMultiplierNormal : Decimal
  aboveIntendedPayoutMultiplierKeystone : Decimal
deriving DecidableEq, Repr

def Curve.standard : Curve where
  startOfDecreasingLine := .ofNat 100
  widthOfDecreasingLineNormal := .ofNat 100
  widthOfDecreasingLineKeystone := .ofNat 200
  aboveIntendedPayoutMultiplierNormal := ⟨80000000⟩
  aboveIntendedPayoutMultiplierKeystone := ⟨57142857⟩

instance : Inhabited Curve := ⟨.standard⟩

structure Config where
  keystoneInterval : Nat
  /-- The round of the keystone blocks. -/
  keystoneRound : Nat
  /-- The number of rounds, with that of the keystones. -/
  payoutRounds : Nat
  /-- The first block of this round after a keystone gets a flat reward. -/
  flatScoreRound : Nat
  flatScoreRoundUse : Bool
  /-- What the reward of each round is multiplied by. -/
  roundRatios : List Decimal
  maxRewardThresholdNormal : Decimal
  maxRewardThresholdKeystone : Decimal
  /-- A hundred times the reward of a block that is endorsed exactly at the intended difficulty. -/
  basicReward : Nat
  /-- The weight of an endorsement by its distance from the earliest one of the same block. -/
  relativeScoreLookupTable : List Decimal
  curve : Curve
deriving DecidableEq, Repr

/-- Full weight for twelve blocks, then falling. -/
def standardWeights : List Decimal :=
  List.replicate 12 Decimal.one ++ [
    48296816, 31551694, 23325824, 18453616, 15238463, 12961255, 11265630, 9955094, 8912509,
    8063761, 7359692, 6766428, 6259873, 5822428, 5440941, 5105386, 4807993, 4542644, 4304458,
    4089495, 3894540, 3716941, 3554497, 3405359, 3267969, 3141000, 3023319, 2913950, 2812047,
    2716878, 2627801, 2544253, 2465739, 2391820, 2322107, 2256254, 1813947].map Decimal.mk

def Config.standard : Config where
  keystoneInterval := 20
  keystoneRound := 3
  payoutRounds := 4
  flatScoreRound := 2
  flatScoreRoundUse := true
  roundRatios := [⟨97000000⟩, ⟨103000000⟩, ⟨107000000⟩, .ofNat 3]
  maxRewardThresholdNormal := .ofNat 200
  maxRewardThresholdKeystone := .ofNat 300
  basicReward := 4000000000
  relativeScoreLookupTable := standardWeights
  curve := .standard

instance : Inhabited Config := ⟨.standard⟩

inductive ConfigError where
  | zeroKeystoneInterval
  | missingRatio (configured round : Nat)
  | zeroWidth
deriving DecidableEq, Repr

def ConfigError.message : ConfigError → String
  | .zeroKeystoneInterval => "keystone interval cannot be 0"
  | .missingRatio configured round =>
    s!"{configured} round ratios configured, round {round} needs one"
  | .zeroWidth => "the decreasing line cannot have a zero width"

namespace Config

/-- The highest round of any block. -/
def highestRound (c : Config) : Nat := max c.keystoneRound (max (c.payoutRounds - 1) 1 - 1)

/-- Whether every round has a ratio and the curve a slope. -/
def check (c : Config) : Except ConfigError Unit :=
  if c.keystoneInterval = 0 then .error .zeroKeystoneInterval
  else if c.roundRatios.length ≤ c.highestRound then
    .error (.missingRatio c.roundRatios.length c.highestRound)
  else if c.curve.widthOfDecreasingLineNormal.isZero
      || c.curve.widthOfDecreasingLineKeystone.isZero then
    .error .zeroWidth
  else .ok ()

@[simp] theorem check_standard : standard.check = .ok () := rfl

end Config

end EndorsedChain.Reward
