import EndorsedChain.Reward.Payout
import Mathlib.Algebra.Ring.Periodic
import Mathlib.Data.Nat.ModEq

/-!
# Rewards repeat with the keystones

A payout reads nothing from the number of its block but the round and whether the flat rule applies
to it, and both follow from the position since the last keystone.  So rounds, positions and payouts
have the keystone interval as a period, and each period begins with a keystone.
-/

namespace EndorsedChain.Reward.Config

variable {c : Config} {a b : ℕ}

theorem roundOf_eq_of_modEq (h : a ≡ b [MOD c.keystoneInterval]) : c.roundOf a = c.roundOf b := by
  have hmod : a % c.keystoneInterval = b % c.keystoneInterval := h
  unfold roundOf
  rw [hmod]
  split
  · rfl
  · rename_i hb
    -- neither block is the first one, which is a keystone
    have hpos {n : ℕ} (hn : n % c.keystoneInterval ≠ 0) : 1 ≤ n :=
      Nat.pos_of_ne_zero (by rintro rfl; exact hn (Nat.zero_mod _))
    have hprevious : (a - 1) % c.keystoneInterval = (b - 1) % c.keystoneInterval :=
      h.sub_right (hpos (hmod ▸ hb)) (hpos hb)
    rw [hprevious]

theorem indexOfRound_eq_of_modEq (h : a ≡ b [MOD c.keystoneInterval]) (round : ℕ) :
    c.indexOfRound a round = c.indexOfRound b round := by
  have hmod : a % c.keystoneInterval = b % c.keystoneInterval := h
  unfold indexOfRound
  rw [roundOf_eq_of_modEq h, hmod]

theorem blockReward_eq_of_modEq (h : a ≡ b [MOD c.keystoneInterval]) (score difficulty : Decimal) :
    c.blockReward a score difficulty = c.blockReward b score difficulty := by
  unfold blockReward totalReward isFlat
  rw [roundOf_eq_of_modEq h, indexOfRound_eq_of_modEq h]

theorem payout_eq_of_modEq (h : a ≡ b [MOD c.keystoneInterval]) (es : Endorsements)
    (difficulty : Decimal) : c.payout a es difficulty = c.payout b es difficulty := by
  unfold payout
  simp only [blockReward_eq_of_modEq h]

/-- Rounds, positions in a round and payouts repeat after each keystone interval.  The multiples of
the interval are in the keystone round. -/
theorem rewards_repeat (c : Config) :
    Function.Periodic c.roundOf c.keystoneInterval ∧
    (∀ round, Function.Periodic (c.indexOfRound · round) c.keystoneInterval) ∧
    (∀ es difficulty, Function.Periodic (c.payout · es difficulty) c.keystoneInterval) ∧
    ∀ n, c.roundOf (n * c.keystoneInterval) = c.keystoneRound := by
  have hperiod (block : ℕ) : block + c.keystoneInterval ≡ block [MOD c.keystoneInterval] :=
    Nat.add_mod_right ..
  refine ⟨fun block ↦ roundOf_eq_of_modEq (hperiod block),
    fun round block ↦ indexOfRound_eq_of_modEq (hperiod block) round,
    fun es difficulty block ↦ payout_eq_of_modEq (hperiod block) es difficulty, fun n ↦ ?_⟩
  rw [roundOf, if_pos (Nat.mul_mod_left ..)]

end EndorsedChain.Reward.Config
