import EndorsedChain.Proofs.Reward.Checked
import Mathlib.Data.Int.CardIntervalMod

/-!
# Positions in a round

The blocks after a keystone take turns in the normal rounds, beginning with round 0.  The position
of a block is how many blocks of its round there are since the keystone, up to and with the block.
The index that is computed for a block is its position only in the last of the normal rounds; in any
other one it is one less (`indexOfRound_eq_position_iff`), so that the flat rule pays the second
block of such a round and not the first one.
-/

namespace EndorsedChain.Reward.Config

variable {c : Config} {block round : ℕ}

/-- The last keystone up to a block. -/
def lastKeystone (c : Config) (block : ℕ) : ℕ := block - block % c.keystoneInterval

/-- How many blocks since the last keystone are of a round. -/
def position (c : Config) (block round : ℕ) : ℕ :=
  ((Finset.Ioc (c.lastKeystone block) block).filter fun m ↦ c.roundOf m = round).card

theorem dvd_lastKeystone (c : Config) (block : ℕ) : c.keystoneInterval ∣ c.lastKeystone block :=
  Nat.dvd_sub_mod block

theorem lastKeystone_add_mod (c : Config) (block : ℕ) :
    c.lastKeystone block + block % c.keystoneInterval = block :=
  Nat.sub_add_cancel (Nat.mod_le ..)

/-- The blocks after a keystone take turns in the normal rounds. -/
theorem roundOf_after_keystone (hrounds : 2 ≤ c.payoutRounds) {keystone i : ℕ}
    (hkeystone : c.keystoneInterval ∣ keystone) (hi : i + 1 < c.keystoneInterval) :
    c.roundOf (keystone + 1 + i) = i % (c.payoutRounds - 1) := by
  obtain ⟨q, rfl⟩ := hkeystone
  have hmod (j : ℕ) (hj : j < c.keystoneInterval) :
      (c.keystoneInterval * q + j) % c.keystoneInterval = j := by
    rw [Nat.mul_add_mod, Nat.mod_eq_of_lt hj]
  rw [Nat.add_right_comm, roundOf, Nat.add_sub_cancel, hmod i (by omega), Nat.add_assoc, hmod _ hi,
    if_neg i.succ_ne_zero, if_neg (by omega)]

/-- The blocks of a round are those whose offset leaves the round as a remainder. -/
theorem position_eq_count (hinterval : c.keystoneInterval ≠ 0) (hrounds : 2 ≤ c.payoutRounds)
    (hround : round < c.payoutRounds - 1) : c.position block round =
      (block % c.keystoneInterval).count (· ≡ round [MOD c.payoutRounds - 1]) := by
  have hlt := Nat.mod_lt block (Nat.pos_of_ne_zero hinterval)
  have hblock := c.lastKeystone_add_mod block
  have hroundOf {i : ℕ} (hi : i < block % c.keystoneInterval) :
      c.roundOf (c.lastKeystone block + 1 + i) = round ↔ i ≡ round [MOD c.payoutRounds - 1] := by
    rw [roundOf_after_keystone hrounds (c.dvd_lastKeystone block) (by omega), Nat.ModEq,
      Nat.mod_eq_of_lt hround]
  rw [Nat.count_eq_card_filter_range, position]
  refine (Finset.card_nbij (c.lastKeystone block + 1 + ·) (fun i hi ↦ ?_)
    (fun _ _ _ _ heq ↦ Nat.add_left_cancel heq) fun m hm ↦ ?_).symm
  · obtain ⟨hi, hmod⟩ := Finset.mem_filter.mp hi
    have hi := Finset.mem_range.mp hi
    have hmem : c.lastKeystone block + 1 + i ∈ Finset.Ioc (c.lastKeystone block) block :=
      Finset.mem_Ioc.mpr ⟨by omega, by omega⟩
    exact Finset.mem_filter.mpr ⟨hmem, (hroundOf hi).mpr hmod⟩
  · obtain ⟨hm, hmod⟩ := Finset.mem_filter.mp hm
    obtain ⟨hgt, hle⟩ := Finset.mem_Ioc.mp hm
    obtain ⟨i, rfl⟩ := Nat.exists_eq_add_of_le (Nat.succ_le_of_lt hgt)
    have hi : i < block % c.keystoneInterval := by omega
    exact ⟨i, Finset.mem_coe.mpr (Finset.mem_filter.mpr
      ⟨Finset.mem_range.mpr hi, (hroundOf hi).mp hmod⟩), rfl⟩

/-- The index in a round, for a block between two keystones. -/
theorem indexOfRound_eq (hrounds : 2 ≤ c.payoutRounds) (hblock : block % c.keystoneInterval ≠ 0) :
    c.indexOfRound block round = if c.roundOf block = round then
      some (block % c.keystoneInterval / (c.payoutRounds - 1)) else none := by
  by_cases hround : c.roundOf block = round
  · rw [indexOfRound, if_neg (not_not.mpr hround), if_pos hround]
    dsimp only
    rw [if_neg hblock]
    split
    · omega
    · omega
    · rfl
  · rw [indexOfRound, if_pos hround, if_neg hround]

/-- Only in the last normal round the index is the position.  In any other round it is one less. -/
theorem position_roundOf (hinterval : c.keystoneInterval ≠ 0) (hrounds : 2 ≤ c.payoutRounds)
    (hblock : block % c.keystoneInterval ≠ 0) : c.position block (c.roundOf block) =
      block % c.keystoneInterval / (c.payoutRounds - 1) +
        if c.roundOf block = c.payoutRounds - 2 then 0 else 1 := by
  have hlt := Nat.mod_lt block (Nat.pos_of_ne_zero hinterval)
  have hpos : 0 < c.payoutRounds - 1 := by omega
  obtain ⟨i, hi⟩ := Nat.exists_eq_add_one_of_ne_zero hblock
  have hround : c.roundOf block = i % (c.payoutRounds - 1) := by
    rw [← roundOf_after_keystone hrounds (c.dvd_lastKeystone block) (by omega)]
    have hkeystone := c.lastKeystone_add_mod block
    exact congrArg c.roundOf (by omega)
  have hroundlt : c.roundOf block < c.payoutRounds - 1 := hround ▸ Nat.mod_lt i hpos
  rw [position_eq_count hinterval hrounds hroundlt, Nat.count_modEq_card _ hpos,
    Nat.mod_eq_of_lt hroundlt, hi]
  congr 1
  by_cases hlast : c.roundOf block = c.payoutRounds - 2
  · obtain ⟨k, hk⟩ : ∃ k, c.payoutRounds - 1 = k + 1 := ⟨c.payoutRounds - 2, by omega⟩
    have hzero : (i + 1) % (c.payoutRounds - 1) = 0 := by
      rw [hk] at hround ⊢
      exact Nat.succ_mod_succ_eq_zero_iff.mpr (by omega)
    rw [if_pos hlast, hzero, if_neg (Nat.not_lt_zero _)]
  · have hone : 1 % (c.payoutRounds - 1) = 1 := Nat.mod_eq_of_lt (by omega)
    have hnext : (i + 1) % (c.payoutRounds - 1) = i % (c.payoutRounds - 1) + 1 := by
      rw [Nat.add_mod_of_add_mod_lt (by omega), hone]
    rw [if_neg hlast, hnext, if_pos (by omega)]

/-- The block of its round that the flat rule pays after a keystone: the first one in the last
normal round, and the second one in any other. -/
def flatPosition (c : Config) : ℕ := if c.flatScoreRound = c.payoutRounds - 2 then 1 else 2

theorem isFlat_iff (hinterval : c.keystoneInterval ≠ 0) (hrounds : 2 ≤ c.payoutRounds)
    (hblock : block % c.keystoneInterval ≠ 0) : c.isFlat block = true ↔
      c.flatScoreRoundUse = true ∧ c.roundOf block = c.flatScoreRound ∧
        c.position block c.flatScoreRound = c.flatPosition := by
  rw [isFlat, Bool.and_eq_true, beq_iff_eq, indexOfRound_eq hrounds hblock]
  refine and_congr_right fun _ ↦ ?_
  by_cases hround : c.roundOf block = c.flatScoreRound
  · have hposition := position_roundOf hinterval hrounds hblock
    rw [hround] at hposition
    rw [if_pos hround, hposition, flatPosition, Option.some.injEq]
    split <;> simp [hround]
  · simp [hround]

/-- Between two keystones the index of a block in its round is its position there exactly if the
round is the last of the normal ones, and one less in any other normal round; there is none in the
rounds that are not its own.  So the flat rule pays the first block of the flat round after each
keystone if that is the last normal round, and otherwise the second one. -/
theorem indexOfRound_eq_position_iff (hcheck : c.check = .ok ()) (hrounds : 2 ≤ c.payoutRounds)
    (hblock : block % c.keystoneInterval ≠ 0) (round : ℕ) :
    (c.roundOf block ≠ round → c.indexOfRound block round = none) ∧
    (c.roundOf block = round →
      (c.indexOfRound block round = some (c.position block round) ↔ round = c.payoutRounds - 2) ∧
      (round ≠ c.payoutRounds - 2 →
        c.indexOfRound block round = some (c.position block round - 1) ∧
          0 < c.position block round)) ∧
    ∀ score difficulty, score.isZero = false → c.blockReward block score difficulty =
      if c.flatScoreRoundUse = true ∧ c.roundOf block = c.flatScoreRound ∧
          c.position block c.flatScoreRound = c.flatPosition
      then c.totalReward block .one .one else c.totalReward block difficulty score := by
  have hinterval := (checked_of_check hcheck).interval_ne
  refine ⟨fun hne ↦ ?_, ?_, fun score difficulty hscore ↦ ?_⟩
  · rw [indexOfRound_eq hrounds hblock, if_neg hne]
  · rintro rfl
    rw [indexOfRound_eq hrounds hblock, if_pos rfl, position_roundOf hinterval hrounds hblock,
      Option.some.injEq]
    split
    · rename_i hlast
      exact ⟨iff_of_true rfl hlast, fun hne ↦ absurd hlast hne⟩
    · rename_i hlast
      exact ⟨iff_of_false (by omega) hlast, fun _ ↦ ⟨rfl, Nat.succ_pos _⟩⟩
  · rw [blockReward, if_neg (Bool.eq_false_iff.mp hscore)]
    simp only [isFlat_iff hinterval hrounds hblock]

/-- The second block of the standard flat round after a keystone. -/
theorem second_of_standard_flat_round : Config.standard.indexOfRound 26 2 = some 2 ∧
    Config.standard.blockReward 26 .one (.ofNat 3) =
      Config.standard.totalReward 26 (.ofNat 3) .one := by
  have hcheck : Config.standard.check = .ok () := rfl
  have hblock : 26 % Config.standard.keystoneInterval ≠ 0 := by decide
  obtain ⟨-, hindex, hreward⟩ := indexOfRound_eq_position_iff hcheck (by decide) hblock 2
  have hposition : Config.standard.position 26 2 = 2 := by decide
  have hindex := (hindex rfl).1.mpr rfl
  rw [hposition] at hindex
  exact ⟨hindex, (hreward .one (.ofNat 3) rfl).trans (if_neg (by decide))⟩

/-- The first block after a keystone is the first of its round, and has the index 0.  If its round
is the flat one, it is not paid the flat reward, but the second block of the round is. -/
theorem first_of_round_is_skipped :
    (Config.standard.check = .ok () ∧ Config.standard.roundOf 21 = 0 ∧
      Config.standard.position 21 0 = 1 ∧ Config.standard.indexOfRound 21 0 = some 0) ∧
    let c := { Config.standard with flatScoreRound := 0 }
    c.check = .ok () ∧ c.isFlat 21 = false ∧ c.position 24 0 = 2 ∧ c.isFlat 24 = true := by
  decide

end EndorsedChain.Reward.Config
