import EndorsedChain.Reward.Amount
import EndorsedChain.Reward.Config

/-! # Why there is no reward -/

namespace EndorsedChain.Reward

inductive ArgumentError where
  | noRatio (round : Nat)
  | negativeDifficulty (difficulty : Decimal)
  | negativeScore (score : Decimal)
deriving DecidableEq, Repr

def ArgumentError.message : ArgumentError → String
  | .noRatio round => s!"no ratio for round {round}"
  | .negativeDifficulty difficulty => s!"difficulty cannot be negative, got {difficulty}"
  | .negativeScore score => s!"score cannot be negative, got {score}"

inductive InvariantError where
  | zeroDifficulty
  | zeroScore
  | invalidReward (reward : Decimal)
  | invalidShare (share : Decimal)
  | amount (cause : Amount.Error)
  | paidTooMuch (paid reward : Amount)
deriving DecidableEq, Repr

def InvariantError.message : InvariantError → String
  | .zeroDifficulty => "difficulty is 0"
  | .zeroScore => "score is 0"
  | .invalidReward reward => s!"block reward {reward} is not a valid amount"
  | .invalidShare share => s!"reward share {share} is not a valid amount"
  | .amount cause => cause.message
  | .paidTooMuch paid reward => s!"paid out {paid} for a block reward of {reward}"

inductive Error where
  | config (cause : ConfigError)
  | argument (cause : ArgumentError)
  | invariant (cause : InvariantError)
deriving DecidableEq, Repr

def Error.message : Error → String
  | .config cause => "invalid reward configuration: " ++ cause.message
  | .argument cause => "invalid argument: " ++ cause.message
  | .invariant cause => "reward computation is inconsistent: " ++ cause.message

end EndorsedChain.Reward
