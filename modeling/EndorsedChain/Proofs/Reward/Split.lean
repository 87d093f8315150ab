import EndorsedChain.Proofs.Reward.Decimal
import EndorsedChain.Proofs.Reward.Endorsements
import EndorsedChain.Reward.Payout
import Mathlib.Algebra.BigOperators.Ring.Finset
import Mathlib.Algebra.Order.BigOperators.Group.List
import Mathlib.Tactic.Linarith

/-!
# Splitting the reward of a block

With weights that are not negative, the shares of a reward are the floors of the exact ones.  They
never add up to more than the reward, and what is left over is less than one unit for each
endorsement: the remainders of the divisions are each below the score (`sum_div_add_sum_mod`).
-/

namespace EndorsedChain.Reward

open Endorsements

/-! ## Sums of shares -/

section Sums

variable {ws : List ℤ}

theorem sum_div_add_sum_mod (r s : ℤ) (ws : List ℤ) :
    s * (ws.map fun w ↦ r * w / s).sum + (ws.map fun w ↦ r * w % s).sum = r * ws.sum := by
  induction ws with
  | nil => simp
  | cons w ws ih =>
    simp only [List.map_cons, List.sum_cons]
    linarith [Int.mul_ediv_add_emod (r * w) s]

theorem sum_shares_le (r : ℤ) (hs : 0 < ws.sum) :
    (ws.map fun w ↦ r * w / ws.sum).sum ≤ r := by
  have hmod : 0 ≤ (ws.map fun w ↦ r * w % ws.sum).sum := by
    refine List.sum_nonneg fun x hx ↦ ?_
    obtain ⟨w, -, rfl⟩ := List.mem_map.mp hx
    exact Int.emod_nonneg _ hs.ne'
  have hsum := sum_div_add_sum_mod r ws.sum ws
  refine le_of_mul_le_mul_left ?_ hs
  linarith [mul_comm r ws.sum]

theorem lt_sum_shares_add_length (r : ℤ) (hs : 0 < ws.sum) :
    r < (ws.map fun w ↦ r * w / ws.sum).sum + ws.length := by
  have hne : ws ≠ [] := by
    rintro rfl
    exact lt_irrefl _ hs
  -- each remainder is below the divisor, and there is at least one
  have hmod : (ws.map fun w ↦ r * w % ws.sum).sum < (ws.map fun _ ↦ ws.sum).sum := by
    obtain ⟨w, hw⟩ := List.exists_mem_of_ne_nil ws hne
    exact List.sum_lt_sum _ _ (fun w _ ↦ (Int.emod_lt_of_pos _ hs).le)
      ⟨w, hw, Int.emod_lt_of_pos _ hs⟩
  rw [List.map_const', List.sum_replicate, nsmul_eq_mul] at hmod
  have hsum := sum_div_add_sum_mod r ws.sum ws
  refine lt_of_mul_lt_mul_left ?_ hs.le
  linarith [mul_comm r ws.sum, mul_add ws.sum (ws.map fun w ↦ r * w / ws.sum).sum ws.length,
    mul_comm (ws.length : ℤ) ws.sum]

end Sums

/-! ## Paying groups -/

section Paying

variable {paid share : Amount} {es : List Endorsement} {groups : List (ℕ × List Endorsement)}
  {amount : ℕ → Amount}

/-- One output for each endorsement that is paid something. -/
def outputsOf (amount : ℕ → Amount) (es : List (ℕ × Endorsement)) : List Output :=
  (es.map fun x ↦ ⟨x.2.miner, amount x.1⟩).filter fun o : Output ↦ o.reward ≠ .zero

theorem outputsOf_append (amount : ℕ → Amount) (es es' : List (ℕ × Endorsement)) :
    outputsOf amount (es ++ es') = outputsOf amount es ++ outputsOf amount es' := by
  rw [outputsOf, List.map_append, List.filter_append]
  rfl

/-- The sum of the amounts. -/
def total (amount : ℕ → Amount) (es : List (ℕ × Endorsement)) : ℕ :=
  (es.map fun x ↦ (amount x.1).units.toNat).sum

theorem total_append (amount : ℕ → Amount) (es es' : List (ℕ × Endorsement)) :
    total amount (es ++ es') = total amount es + total amount es' := by
  rw [total, List.map_append, List.sum_append]
  rfl

theorem total_cons (amount : ℕ → Amount) (x : ℕ × Endorsement) (es : List (ℕ × Endorsement)) :
    total amount (x :: es) = (amount x.1).units.toNat + total amount es := rfl

/-- What is not paid does not count. -/
theorem sum_outputsOf (amount : ℕ → Amount) (es : List (ℕ × Endorsement)) :
    ((outputsOf amount es).map (·.reward.units.toNat)).sum = total amount es := by
  induction es with
  | nil => rfl
  | cons x es ih =>
    rw [total_cons, ← ih, outputsOf, List.map_cons]
    by_cases hzero : amount x.1 = .zero
    · rw [List.filter_cons_of_neg (by simpa using hzero), hzero]
      exact (Nat.zero_add _).symm
    · rw [List.filter_cons_of_pos (by simpa using hzero), List.map_cons, List.sum_cons]
      rfl

theorem add_eq_ok (h : paid.units.toNat + share.units.toNat < UInt64.size) :
    ∃ sum, paid.add share = .ok sum ∧
      sum.units.toNat = paid.units.toNat + share.units.toNat := by
  have hadd : paid.add share = .ok ⟨paid.units + share.units⟩ := if_pos h
  exact ⟨_, hadd, Amount.toNat_add hadd⟩

theorem outputsOf_of_zero {height : ℕ} (hzero : amount height = .zero) (es : List Endorsement) :
    outputsOf amount (es.map (height, ·)) = [] := by
  induction es with
  | nil => rfl
  | cons e es ih => simp [outputsOf, hzero]

theorem total_of_zero {height : ℕ} (hzero : amount height = .zero) (es : List Endorsement) :
    total amount (es.map (height, ·)) = 0 := by
  rw [← sum_outputsOf, outputsOf_of_zero hzero]
  rfl

/-- A group is paid as long as the sum fits. -/
theorem payGroup_eq_ok (height : ℕ)
    (hfits : paid.units.toNat + total amount (es.map (height, ·)) < UInt64.size) :
    ∃ paid', Config.payGroup (amount height) paid es =
        .ok (paid', outputsOf amount (es.map (height, ·))) ∧
      paid'.units.toNat = paid.units.toNat + total amount (es.map (height, ·)) := by
  by_cases hzero : amount height = .zero
  · -- the first endorsement already ends the group
    refine ⟨paid, ?_, by rw [total_of_zero hzero, Nat.add_zero]⟩
    rw [outputsOf_of_zero hzero]
    cases es with
    | nil => rfl
    | cons e es => rw [Config.payGroup, if_pos hzero]; rfl
  · induction es generalizing paid with
    | nil => exact ⟨paid, rfl, rfl⟩
    | cons e es ih =>
      have htotal : total amount ((e :: es).map (height, ·)) =
          (amount height).units.toNat + total amount (es.map (height, ·)) := rfl
      rw [htotal] at hfits ⊢
      obtain ⟨sum, hadd, hsum⟩ : ∃ sum, paid.add (amount height) = .ok sum ∧
        sum.units.toNat = paid.units.toNat + (amount height).units.toNat := add_eq_ok (by omega)
      have hrest : sum.units.toNat + total amount (es.map (height, ·)) < UInt64.size := by omega
      obtain ⟨paid', hpay, hpaid⟩ := ih hrest
      have houtputs : outputsOf amount ((e :: es).map (height, ·)) =
          ⟨e.miner, amount height⟩ :: outputsOf amount (es.map (height, ·)) := by
        rw [outputsOf, List.map_cons, List.map_cons,
          List.filter_cons_of_pos (by simpa using hzero)]
        rfl
      refine ⟨paid', ?_, by omega⟩
      rw [Config.payGroup, if_neg hzero, hadd, houtputs]
      change (Config.payGroup (amount height) sum es >>= _) = _
      rw [hpay]
      rfl

/-- All groups are paid as long as the sum fits. -/
theorem payGroups_eq_ok {c : Config} {reward : Amount} {score : Decimal} {lowest : ℕ}
    (hshare : ∀ g ∈ groups,
      Config.share reward score (c.weight (g.1 - lowest)) = .ok (amount g.1))
    (hfits : paid.units.toNat + total amount (flatten groups) < UInt64.size) :
    ∃ paid', c.payGroups reward score lowest paid groups =
        .ok (paid', outputsOf amount (flatten groups)) ∧
      paid'.units.toNat = paid.units.toNat + total amount (flatten groups) := by
  induction groups generalizing paid with
  | nil => exact ⟨paid, rfl, rfl⟩
  | cons g groups ih =>
    rw [List.forall_mem_cons] at hshare
    rw [flatten_cons, total_append] at hfits ⊢
    obtain ⟨first, hfirst, hfirstPaid⟩ : ∃ first, Config.payGroup (amount g.1) paid g.2 =
        .ok (first, outputsOf amount (g.2.map (g.1, ·))) ∧
      first.units.toNat = paid.units.toNat + total amount (g.2.map (g.1, ·)) :=
        payGroup_eq_ok g.1 (by omega)
    have hleft : first.units.toNat + total amount (flatten groups) < UInt64.size := by omega
    obtain ⟨paid', hrest, hpaid⟩ := ih hshare.2 hleft
    refine ⟨paid', ?_, by omega⟩
    rw [Config.payGroups, hshare.1, outputsOf_append]
    change (Config.payGroup (amount g.1) paid g.2 >>= _) = _
    rw [hfirst]
    change (c.payGroups reward score lowest first groups >>= _) = _
    rw [hrest]
    rfl

end Paying

theorem eq_zero_iff {a : Amount} : a = .zero ↔ a.units.toNat = 0 := by
  cases a
  rw [Amount.zero, Amount.mk.injEq, ← UInt64.toNat_inj]
  rfl

/-! ## Weights and shares -/

namespace Config

variable {c : Config} {r : UInt64} {score weight : Decimal}

/-- The weight of the endorsements at a height among all of a block. -/
def weightAt (c : Config) (es : List (ℕ × Endorsement)) (height : ℕ) : Decimal :=
  c.weight (height - (es.map (·.1)).min?.getD 0)

theorem units_weight_nonneg (h : ∀ w ∈ c.relativeScoreLookupTable, w.isNegative = false)
    (distance : ℕ) : 0 ≤ (c.weight distance).units := by
  unfold Config.weight
  rw [List.getD_eq_getElem?_getD]
  cases hget : c.relativeScoreLookupTable[distance]? with
  | none => exact le_rfl
  | some w => exact Decimal.isNegative_eq_false_iff.mp (h w (List.mem_of_getElem? hget))

theorem units_foldl_weights (weight : ℕ → Decimal) (groups : List (ℕ × List Endorsement))
    (start : Decimal) :
    (groups.foldl (fun total (height, group) ↦ total + weight height * .ofNat group.length)
      start).units = start.units + ((flatten groups).map fun x ↦ (weight x.1).units).sum := by
  induction groups generalizing start with
  | nil => exact (add_zero _).symm
  | cons g groups ih =>
    have hgroup : ((g.2.map (g.1, ·)).map fun x ↦ (weight x.1).units).sum =
        (weight g.1).units * g.2.length := by
      rw [List.map_map]
      change (g.2.map fun _ ↦ (weight g.1).units).sum = _
      rw [List.map_const', List.sum_replicate, nsmul_eq_mul, mul_comm]
    rw [List.foldl_cons, ih, Decimal.units_add, Decimal.units_mul_ofNat, flatten_cons,
      List.map_append, List.sum_append, hgroup, add_assoc]

theorem units_score (c : Config) (es : List (ℕ × Endorsement)) :
    (c.score (.ofList es)).units = (es.map fun x ↦ (c.weightAt es x.1).units).sum := by
  unfold Config.score weightAt
  rw [lowest?_ofList]
  cases hlowest : (es.map (·.1)).min? with
  | none =>
    rw [List.min?_eq_none_iff, List.map_eq_nil_iff] at hlowest
    subst hlowest
    rfl
  | some lowest =>
    have hsum := units_foldl_weights (fun height ↦ c.weight (height - lowest))
      (ofList es).groups .zero
    rw [flatten_ofList] at hsum
    exact (hsum.trans (zero_add _)).trans ((byHeight_perm es).map _).sum_eq

/-- The share of a weight in a reward. -/
def shareOf (r : UInt64) (score weight : Decimal) : Amount :=
  ⟨UInt64.ofNat (r.toNat * weight.units / score.units).toNat⟩

theorem toNat_shareOf (r : UInt64) (hscore : 0 < score.units) (hnonneg : 0 ≤ weight.units)
    (hle : weight.units ≤ score.units) :
    ((shareOf r score weight).units.toNat : ℤ) = r.toNat * weight.units / score.units := by
  have hr : (0 : ℤ) ≤ r.toNat := Int.natCast_nonneg _
  have hlt : (r.toNat : ℤ) < UInt64.size := by exact_mod_cast r.toNat_lt
  have hpos : 0 ≤ r.toNat * weight.units / score.units :=
    Int.ediv_nonneg (mul_nonneg hr hnonneg) hscore.le
  have hshare : r.toNat * weight.units / score.units ≤ r.toNat :=
    Int.ediv_le_of_le_mul hscore (mul_le_mul_of_nonneg_left hle hr)
  have hfits : (r.toNat * weight.units / score.units).toNat < UInt64.size := by omega
  rw [shareOf, UInt64.toNat_ofNat_of_lt' hfits, Int.toNat_of_nonneg hpos]

theorem share_eq_ok (r : UInt64) (hscore : 0 < score.units) (hnonneg : 0 ≤ weight.units)
    (hle : weight.units ≤ score.units) :
    share ⟨r⟩ score weight = .ok (shareOf r score weight) := by
  have hfloor := Decimal.floor_quotient (.ofNat r.toNat * weight) hscore
  rw [Decimal.units_ofNat_mul, ← toNat_shareOf r hscore hnonneg hle] at hfloor
  rw [share, Decimal.div?_eq_some hscore, Decimal.units_ofNat_mul]
  simp only [Decimal.toUInt64?_of_floor hfloor]

/-! ## Payouts -/

section Payout

variable {es : List (ℕ × Endorsement)} {block : ℕ} {difficulty reward : Decimal}

theorem weightAt_nonneg (hweights : ∀ w ∈ c.relativeScoreLookupTable, w.isNegative = false)
    (es : List (ℕ × Endorsement)) (height : ℕ) : 0 ≤ (c.weightAt es height).units :=
  units_weight_nonneg hweights _

theorem score_nonneg (hweights : ∀ w ∈ c.relativeScoreLookupTable, w.isNegative = false)
    (es : List (ℕ × Endorsement)) : 0 ≤ (c.score (.ofList es)).units := by
  rw [units_score]
  refine List.sum_nonneg fun y hy ↦ ?_
  obtain ⟨x, -, rfl⟩ := List.mem_map.mp hy
  exact weightAt_nonneg hweights es x.1

theorem weightAt_le_score (hweights : ∀ w ∈ c.relativeScoreLookupTable, w.isNegative = false)
    {x : ℕ × Endorsement} (hx : x ∈ es) :
    (c.weightAt es x.1).units ≤ (c.score (.ofList es)).units := by
  rw [units_score]
  refine List.single_le_sum (fun y hy ↦ ?_) _ (List.mem_map_of_mem hx)
  obtain ⟨z, -, rfl⟩ := List.mem_map.mp hy
  exact weightAt_nonneg hweights es z.1

/-- What an endorsement at a height is paid. -/
def amountAt (c : Config) (es : List (ℕ × Endorsement)) (r : UInt64) (height : ℕ) : Amount :=
  shareOf r (c.score (.ofList es)) (c.weightAt es height)

/-- The shares are floors of exact quotients, so that they keep within the reward. -/
theorem total_amountAt (hweights : ∀ w ∈ c.relativeScoreLookupTable, w.isNegative = false)
    (r : UInt64) (hscore : 0 < (c.score (.ofList es)).units) :
    total (c.amountAt es r) (byHeight es) ≤ r.toNat ∧
      r.toNat < total (c.amountAt es r) (byHeight es) + es.length := by
  have hsum : ((byHeight es).map fun x ↦ (c.weightAt es x.1).units).sum =
      (c.score (.ofList es)).units := by
    rw [units_score]
    exact ((byHeight_perm es).map _).sum_eq
  have htotal : (total (c.amountAt es r) (byHeight es) : ℤ) =
      (((byHeight es).map fun x ↦ (c.weightAt es x.1).units).map fun w ↦
        r.toNat * w / (c.score (.ofList es)).units).sum := by
    rw [total, List.map_map, Nat.cast_list_sum, List.map_map]
    refine congrArg List.sum (List.map_congr_left fun x hx ↦ ?_)
    exact toNat_shareOf r hscore (weightAt_nonneg hweights es x.1)
      (weightAt_le_score hweights ((byHeight_perm es).mem_iff.mp hx))
  have hle := sum_shares_le r.toNat (hsum.symm ▸ hscore)
  have hlt := lt_sum_shares_add_length r.toNat (hsum.symm ▸ hscore)
  rw [hsum, ← htotal] at hle hlt
  rw [List.length_map, (byHeight_perm es).length_eq] at hlt
  exact ⟨by exact_mod_cast hle, by exact_mod_cast hlt⟩

theorem payGroups_ofList (hweights : ∀ w ∈ c.relativeScoreLookupTable, w.isNegative = false)
    (r : UInt64) (hscore : 0 < (c.score (.ofList es)).units) {lowest : ℕ}
    (hlowest : (ofList es).lowest? = some lowest) :
    ∃ paid, c.payGroups ⟨r⟩ (c.score (.ofList es)) lowest .zero (ofList es).groups =
        .ok (paid, outputsOf (c.amountAt es r) (byHeight es)) ∧
      paid.units.toNat = total (c.amountAt es r) (byHeight es) := by
  have hweight (height : ℕ) : c.weight (height - lowest) = c.weightAt es height := by
    rw [lowest?_ofList] at hlowest
    rw [weightAt, hlowest, Option.getD_some]
  have hshare : ∀ g ∈ (ofList es).groups, share ⟨r⟩ (c.score (.ofList es))
      (c.weight (g.1 - lowest)) = .ok (c.amountAt es r g.1) := by
    intro g hg
    -- the weight of an empty group would not be bounded by the score
    obtain ⟨e, he⟩ := (grouped_ofList es).exists_mem_flatten hg
    have hmem : (g.1, e) ∈ es := mem_flatten_ofList.mp he
    rw [hweight]
    exact share_eq_ok r hscore (weightAt_nonneg hweights es g.1) (weightAt_le_score hweights hmem)
  have htotal := (total_amountAt hweights r hscore).1
  have hlt : r.toNat < UInt64.size := r.toNat_lt
  have hfits : Amount.zero.units.toNat + total (c.amountAt es r) (flatten (ofList es).groups) <
      UInt64.size := by
    rw [flatten_ofList, show Amount.zero.units.toNat = 0 from rfl]
    omega
  obtain ⟨paid, hpay, hpaid⟩ := payGroups_eq_ok hshare hfits
  rw [flatten_ofList] at hpay hpaid
  exact ⟨paid, hpay, hpaid.trans (Nat.zero_add _)⟩

theorem toRat_score (c : Config) (es : List (ℕ × Endorsement)) :
    (c.score (.ofList es)).toRat = (es.map fun x ↦ (c.weightAt es x.1).toRat).sum := by
  rw [← Decimal.toRat_sum, ← units_score]

theorem payout_eq_ok_of_isZero {endorsements : Endorsements}
    (hreward : c.blockReward block (c.score endorsements) difficulty = .ok reward)
    (hr : reward.toUInt64? = some r) (hzero : (c.score endorsements).isZero = true) :
    c.payout block endorsements difficulty = .ok ⟨⟨r⟩, .zero, []⟩ := by
  have hle : ¬(⟨r⟩ : Amount) < .zero := UInt64.not_lt.mpr UInt64.zero_le
  unfold payout
  simp only [hreward, hr, hzero, bind, Except.bind, pure, Except.pure, if_true]
  cases endorsements.lowest? with
  | none => simp only [if_neg hle]
  | some lowest => simp only [if_neg hle]

theorem payout_eq_ok {endorsements : Endorsements}
    (hreward : c.blockReward block (c.score endorsements) difficulty = .ok reward)
    (hr : reward.toUInt64? = some r) (hzero : (c.score endorsements).isZero = false)
    {lowest : ℕ} (hlowest : endorsements.lowest? = some lowest) {paid : Amount}
    {outputs : List Output}
    (hpay : c.payGroups ⟨r⟩ (c.score endorsements) lowest .zero endorsements.groups =
      .ok (paid, outputs)) (hle : paid.units ≤ r) :
    c.payout block endorsements difficulty = .ok ⟨⟨r⟩, paid, outputs⟩ := by
  have hle : ¬(⟨r⟩ : Amount) < paid := UInt64.not_lt.mpr hle
  unfold payout
  simp only [hreward, hr, hzero, hlowest, hpay, bind, Except.bind, pure, Except.pure, if_neg hle,
    Bool.false_eq_true, if_false]

/-- The outputs, as the floors of the exact shares. -/
theorem map_outputsOf (hweights : ∀ w ∈ c.relativeScoreLookupTable, w.isNegative = false)
    (r : UInt64) (hscore : 0 < (c.score (.ofList es)).units) :
    (outputsOf (c.amountAt es r) (byHeight es)).map
        (fun o ↦ (o.miner, (o.reward.units.toNat : ℤ))) =
      ((byHeight es).map fun x ↦ (x.2.miner,
        ⌊(r.toNat : ℚ) * (c.weightAt es x.1).toRat / (c.score (.ofList es)).toRat⌋)).filter
          fun o ↦ o.2 ≠ 0 := by
  have hfloor : ∀ x ∈ byHeight es, ((c.amountAt es r x.1).units.toNat : ℤ) =
      ⌊(r.toNat : ℚ) * (c.weightAt es x.1).toRat / (c.score (.ofList es)).toRat⌋ := by
    intro x hx
    rw [Decimal.floor_toRat_div _ _ hscore]
    exact toNat_shareOf r hscore (weightAt_nonneg hweights es x.1)
      (weightAt_le_score hweights ((byHeight_perm es).mem_iff.mp hx))
  have hmap : ((byHeight es).map fun x ↦ (x.2.miner,
      ⌊(r.toNat : ℚ) * (c.weightAt es x.1).toRat / (c.score (.ofList es)).toRat⌋)) =
        (byHeight es).map fun x ↦ (x.2.miner, ((c.amountAt es r x.1).units.toNat : ℤ)) :=
    List.map_congr_left fun x hx ↦ by rw [hfloor x hx]
  rw [hmap, outputsOf, List.filter_map, List.map_map, List.filter_map]
  refine congrArg _ (List.filter_congr fun x _ ↦ ?_)
  simp [eq_zero_iff]

/-- A block whose reward fits is paid out.  Each endorsement gets the floor of its exact share, in
the order of the heights and without outputs of nothing.  The payouts add up to no more than the
reward, and to less than one unit below it for each endorsement. -/
theorem payout_splits (c : Config)
    (hweights : ∀ w ∈ c.relativeScoreLookupTable, w.isNegative = false) (block : ℕ)
    (es : List (ℕ × Endorsement)) (difficulty reward : Decimal) (r : UInt64)
    (hreward : c.blockReward block (c.score (.ofList es)) difficulty = .ok reward)
    (hr : reward.floor = r.toNat) :
    ∃ p, c.payout block (.ofList es) difficulty = .ok p ∧ p.blockReward = ⟨r⟩ ∧
      (c.score (.ofList es)).toRat = (es.map fun x ↦ (c.weightAt es x.1).toRat).sum ∧
      p.outputs.map (fun o ↦ (o.miner, (o.reward.units.toNat : ℤ))) =
        (if (c.score (.ofList es)).isZero then []
        else ((byHeight es).map fun x ↦ (x.2.miner,
          ⌊(r.toNat : ℚ) * (c.weightAt es x.1).toRat / (c.score (.ofList es)).toRat⌋)).filter
            fun o ↦ o.2 ≠ 0) ∧
      p.paid.units.toNat = (p.outputs.map (·.reward.units.toNat)).sum ∧
      p.paid.units.toNat ≤ r.toNat ∧
      (0 < (c.score (.ofList es)).toRat → r.toNat - p.paid.units.toNat < es.length) := by
  have hr := Decimal.toUInt64?_of_floor hr
  have hnonneg := score_nonneg hweights es
  cases hzero : (c.score (.ofList es)).isZero with
  | true =>
    refine ⟨_, payout_eq_ok_of_isZero hreward hr hzero, rfl, toRat_score c es, rfl, rfl,
      Nat.zero_le _, fun hpos ↦ absurd hpos ?_⟩
    rw [Decimal.toRat, Decimal.isZero_iff.mp hzero]
    simp
  | false =>
    have hscore : 0 < (c.score (.ofList es)).units :=
      lt_of_le_of_ne hnonneg fun heq ↦ by simp [Decimal.isZero, ← heq] at hzero
    have hne : (ofList es).lowest? ≠ none := by
      intro hnone
      rw [Config.score, hnone] at hscore
      exact lt_irrefl _ hscore
    obtain ⟨lowest, hlowest⟩ := Option.ne_none_iff_exists'.mp hne
    obtain ⟨paid, hpay, hpaid⟩ := payGroups_ofList hweights r hscore hlowest
    obtain ⟨hle, hlt⟩ := total_amountAt hweights r hscore
    rw [← hpaid] at hle hlt
    refine ⟨_, payout_eq_ok hreward hr hzero hlowest hpay (UInt64.le_iff_toNat_le.mpr hle), rfl,
      toRat_score c es, map_outputsOf hweights r hscore, ?_, hle, fun _ ↦ ?_⟩
    · rw [hpaid, sum_outputsOf]
    · change r.toNat - paid.units.toNat < es.length
      omega

def lateEndorsements : List (ℕ × Endorsement) :=
  [(113, ⟨"V1", "aa"⟩), (100, ⟨"V2", "bb"⟩), (113, ⟨"V3", "cc"⟩)]

/-- The earliest endorsement gets the most, and one unit is left over. -/
theorem late_endorsements_split : ∃ p,
    Config.standard.payout 1 (.ofList lateEndorsements) .one = .ok p ∧
      p.outputs = [⟨"V2", ⟨3390317679⟩⟩, ⟨"V1", ⟨1069702660⟩⟩, ⟨"V3", ⟨1069702660⟩⟩] ∧
      p.paid.units.toNat = 3390317679 + 1069702660 + 1069702660 ∧
      5529723000 - p.paid.units.toNat < 3 := by
  have hweights : ∀ w ∈ Config.standard.relativeScoreLookupTable, w.isNegative = false := by
    decide
  have hreward : Config.standard.blockReward 1 (Config.standard.score (.ofList lateEndorsements))
      .one = .ok ⟨552972300004299840⟩ := by decide +kernel
  obtain ⟨p, hpayout, -, -, -, hpaid, -, hlost⟩ := payout_splits .standard hweights 1
    lateEndorsements .one ⟨552972300004299840⟩ 5529723000 hreward (by decide +kernel)
  have hoption : (Config.standard.payout 1 (.ofList lateEndorsements) .one).toOption.map
      (·.outputs) = some [⟨"V2", ⟨3390317679⟩⟩, ⟨"V1", ⟨1069702660⟩⟩, ⟨"V3", ⟨1069702660⟩⟩] := by
    decide +kernel
  rw [hpayout] at hoption
  have houtputs : p.outputs = _ := Option.some.inj hoption
  have hscore : (0 : ℚ) < (Config.standard.score (.ofList lateEndorsements)).toRat := by
    have hunits : Config.standard.score (.ofList lateEndorsements) = ⟨163103388⟩ := by
      decide +kernel
    rw [hunits, Decimal.toRat]
    exact div_pos (by norm_num) (by exact_mod_cast Decimal.scale_pos)
  refine ⟨p, hpayout, houtputs, ?_, hlost hscore⟩
  rw [hpaid, houtputs]
  rfl

end Payout

end Config

end EndorsedChain.Reward
