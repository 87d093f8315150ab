import EndorsedChain.Document.Reading
import EndorsedChain.Document.Rendering
import EndorsedChain.Reward.Config

/-! # Documents of the configuration of the rewards -/

namespace EndorsedChain.Reward

def Curve.fields : List (String × Field Curve) := [
  ("start_of_decreasing_line", .decimal (·.startOfDecreasingLine) fun c d =>
    { c with startOfDecreasingLine := d }),
  ("width_of_decreasing_line_normal", .decimal (·.widthOfDecreasingLineNormal) fun c d =>
    { c with widthOfDecreasingLineNormal := d }),
  ("width_of_decreasing_line_keystone", .decimal (·.widthOfDecreasingLineKeystone) fun c d =>
    { c with widthOfDecreasingLineKeystone := d }),
  ("above_intended_payout_multiplier_normal",
    .decimal (·.aboveIntendedPayoutMultiplierNormal) fun c d =>
      { c with aboveIntendedPayoutMultiplierNormal := d }),
  ("above_intended_payout_multiplier_keystone",
    .decimal (·.aboveIntendedPayoutMultiplierKeystone) fun c d =>
      { c with aboveIntendedPayoutMultiplierKeystone := d })]

namespace Config

def layout : Layout Config where
  fields := [
    ("keystone_interval", .nat 32 (·.keystoneInterval) fun c n => { c with keystoneInterval := n }),
    ("keystone_round", .nat 32 (·.keystoneRound) fun c n => { c with keystoneRound := n }),
    ("payout_rounds", .nat 32 (·.payoutRounds) fun c n => { c with payoutRounds := n }),
    ("flat_score_round", .nat 32 (·.flatScoreRound) fun c n => { c with flatScoreRound := n }),
    ("flat_score_round_use", .flag (·.flatScoreRoundUse) fun c b =>
      { c with flatScoreRoundUse := b }),
    ("round_ratios", .decimals (·.roundRatios) fun c ds => { c with roundRatios := ds }),
    ("max_reward_threshold_normal", .decimal (·.maxRewardThresholdNormal) fun c d =>
      { c with maxRewardThresholdNormal := d }),
    ("max_reward_threshold_keystone", .decimal (·.maxRewardThresholdKeystone) fun c d =>
      { c with maxRewardThresholdKeystone := d }),
    ("basic_reward", .nat 64 (·.basicReward) fun c n => { c with basicReward := n }),
    ("relative_score_lookup_table", .decimals (·.relativeScoreLookupTable) fun c ds =>
      { c with relativeScoreLookupTable := ds })]
  groups := [
    ("curve", Curve.fields.map fun (name, f) =>
      (name, f.within Config.curve fun c curve => { c with curve }))]

/-- Reads a document; what it does not give is standard. -/
def ofYaml? (text : String) : Option Config := layout.ofYaml? .standard text

def toYaml (c : Config) : String := layout.toYaml c

end Config

end EndorsedChain.Reward
