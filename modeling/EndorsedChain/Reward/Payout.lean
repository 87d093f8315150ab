import EndorsedChain.Reward.Curve
import EndorsedChain.Reward.Endorsements

/-! # Payouts: the reward of a block split among its endorsements -/

namespace EndorsedChain.Reward

structure Output where
  miner : String
  reward : Amount
deriving DecidableEq, Repr

structure Payout where
  blockReward : Amount
  /-- The sum of the outputs. -/
  paid : Amount
  outputs : List Output
deriving DecidableEq, Repr

namespace Config

/-- The weight of an endorsement so many blocks after the earliest one, nothing past the end of the
table. -/
def weight (c : Config) (distance : Nat) : Decimal :=
  c.relativeScoreLookupTable.getD distance .zero

/-- The score of endorsements: the sum of their weights. -/
def score (c : Config) (es : Endorsements) : Decimal :=
  match es.lowest? with
  | none => .zero
  | some lowest =>
    es.groups.foldl (fun total (height, group) =>
      total + c.weight (height - lowest) * .ofNat group.length) .zero

/-- What each endorsement of a weight is paid. -/
def share (reward : Amount) (score weight : Decimal) : Except Error Amount :=
  match (Decimal.ofNat reward.units.toNat * weight).div? score with
  | none => .error (.invariant .zeroScore)
  | some share =>
    match share.toUInt64? with
    | none => .error (.invariant (.invalidShare share))
    | some units => .ok ⟨units⟩

/-- Pays the same share to each endorsement of a group. The result is the sum paid so far and the
outputs; a share of nothing makes no output. -/
def payGroup (share : Amount) : Amount → List Endorsement → Except Error (Amount × List Output)
  | paid, [] => return (paid, [])
  | paid, e :: es => do
    if share = .zero then return (paid, [])
    let paid ← (paid.add share).mapError fun e => .invariant (.amount e)
    let (paid, outputs) ← payGroup share paid es
    return (paid, ⟨e.miner, share⟩ :: outputs)

def payGroups (c : Config) (reward : Amount) (score : Decimal) (lowest : Nat) :
    Amount → List (Nat × List Endorsement) → Except Error (Amount × List Output)
  | paid, [] => return (paid, [])
  | paid, (height, group) :: rest => do
    let share ← share reward score (c.weight (height - lowest))
    let (paid, first) ← payGroup share paid group
    let (paid, others) ← c.payGroups reward score lowest paid rest
    return (paid, first ++ others)

/-- Splits the reward of a block among the miners of its endorsements, by their weight. -/
def payout (c : Config) (block : Nat) (es : Endorsements) (difficulty : Decimal) :
    Except Error Payout := do
  let score := c.score es
  let reward ← c.blockReward block score difficulty
  match reward.toUInt64? with
  | none => throw (.invariant (.invalidReward reward))
  | some units =>
    let blockReward : Amount := ⟨units⟩
    let (paid, outputs) ←
      match es.lowest? with
      | none => pure (Amount.zero, [])
      | some lowest =>
        if score.isZero then pure (Amount.zero, [])
        else c.payGroups blockReward score lowest .zero es.groups
    if blockReward < paid then throw (.invariant (.paidTooMuch paid blockReward))
    return ⟨blockReward, paid, outputs⟩

end Config

end EndorsedChain.Reward
