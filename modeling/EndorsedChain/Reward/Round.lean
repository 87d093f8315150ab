import EndorsedChain.Reward.Config

/-!
# Rounds

Every keystone block is in the keystone round. The blocks between two keystones take turns in the
other rounds.
-/

namespace EndorsedChain.Reward.Config

def isKeystoneRound (c : Config) (round : Nat) : Bool := round == c.keystoneRound

def roundOf (c : Config) (block : Nat) : Nat :=
  if block % c.keystoneInterval = 0 then c.keystoneRound
  else if c.payoutRounds ≤ 1 then 0
  else (block - 1) % c.keystoneInterval % (c.payoutRounds - 1)

/-- Whether a block is paid in the keystone round, whatever its number. -/
def isKeystoneHeight (c : Config) (block : Nat) : Bool := c.isKeystoneRound (c.roundOf block)

/-- The position of a block, counted from 1, among those of its round since the last keystone. -/
def indexOfRound (c : Config) (block round : Nat) : Option Nat :=
  if c.roundOf block ≠ round then none
  else
    let index := block % c.keystoneInterval
    if index = 0 then some 1
    else
      match c.payoutRounds with
      | 0 => none
      | 1 => some index
      | rounds => some (index / (rounds - 1))

/-- Whether a block is paid as if it was endorsed exactly at the difficulty. -/
def isFlat (c : Config) (block : Nat) : Bool :=
  c.flatScoreRoundUse && c.indexOfRound block c.flatScoreRound == some 1

end EndorsedChain.Reward.Config
