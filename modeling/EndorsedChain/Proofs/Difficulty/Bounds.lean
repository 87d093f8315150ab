import EndorsedChain.Proofs.Difficulty.Quotient
import EndorsedChain.Proofs.Sample.Openings
import Mathlib.Algebra.Order.Ring.Abs

/-!
# How far the difficulty moves

The next difficulty lies between a sixth and ten times of the mean work.  It rises with the works
and falls with the solve times.
-/

namespace EndorsedChain.Retarget

open VeriBlock

variable {context : List Header} {works : List Nat}

/-! ## Arithmetic in 64 bits -/

/-- What is computed with fits in 64 bits with a sign: the expected time before it is halved, each
weighted solve time, and the sums of them as they are added up. -/
structure FitsWord (gs : List Int) : Prop where
  expected : gs.length * (gs.length + 1) * targetBlockTime < 2 ^ 63
  term : ∀ (k : Nat) (gap : Int), gs[k]? = some gap → |((k : Int) + 1) * clamp gap| < 2 ^ 63
  sum : ∀ k, |weightedTime 1 (gs.take k)| < 2 ^ 63

theorem fitsWord {gs : List Int} (hshort : gs.length + 1 < 2 ^ 28) : FitsWord gs := by
  have hproduct : gs.length * (gs.length + 1) ≤ 2 ^ 28 * 2 ^ 28 :=
    Nat.mul_le_mul (by omega) hshort.le
  refine ⟨?_, ?_, ?_⟩
  · unfold targetBlockTime
    omega
  · intro k gap hgap
    obtain ⟨hk, -⟩ := List.getElem?_eq_some_iff.mp hgap
    have hweight : |(k : Int) + 1| ≤ 2 ^ 28 := by
      rw [abs_of_nonneg (by omega)]
      omega
    have hclamp : |clamp gap| ≤ 180 := abs_le.mpr (clamp_mem gap)
    rw [abs_mul]
    calc |(k : Int) + 1| * |clamp gap| ≤ 2 ^ 28 * 180 :=
          mul_le_mul hweight hclamp (abs_nonneg _) (by norm_num)
      _ < 2 ^ 63 := by norm_num
  · intro k
    have hbound := abs_weightedTime_le (gs.take k)
    have hmono := expectedTime_mono (List.length_take_le' k gs)
    have hdouble := two_mul_expectedTime gs.length
    omega

/-! ## Bounds and order -/

theorem quotient_between (sum : Nat) {expected n time : Nat} (hn : 0 < n) (htime : 0 < time)
    (hlow : expected ≤ 10 * time) (hhigh : time ≤ 6 * expected) :
    sum / (6 * n) ≤ sum * expected / (n * time) ∧
      sum * expected / (n * time) ≤ 10 * sum / n := by
  have hexpected : 0 < expected := by omega
  constructor
  · calc sum / (6 * n) = sum * expected / (6 * n * expected) :=
          (Nat.mul_div_mul_right _ _ hexpected).symm
      _ ≤ sum * expected / (n * time) := by
          refine Nat.div_le_div_left ?_ (Nat.mul_pos hn htime)
          nlinarith
  · calc sum * expected / (n * time) ≤ 10 * sum * time / (n * time) := by
          refine Nat.div_le_div_right ?_
          nlinarith
      _ = 10 * sum / n := Nat.mul_div_mul_right _ _ htime

theorem exists_next (params : NetworkParameters) (hlength : 2 ≤ context.length)
    (hworks : HaveWorks context works) :
    ∃ difficulty, next params context = .ok difficulty ∧
      max params.minimumDifficulty.toNat (works.dropLast.sum / (6 * (context.length - 1))) ≤
        difficulty ∧
      difficulty ≤
        max params.minimumDifficulty.toNat (10 * works.dropLast.sum / (context.length - 1)) := by
  have hcount : (gaps context.reverse).length = context.length - 1 := by
    rw [length_gaps, List.length_reverse]
  have hpos : 0 < context.length - 1 := by omega
  have hone := countedTime_pos (gaps context.reverse)
  obtain ⟨htenth, hsix⟩ := countedTime_between (hcount ▸ hpos)
  rw [hcount] at htenth hsix
  have htime : 0 < (countedTime (gaps context.reverse)).toNat := by omega
  have hten : expectedTime (context.length - 1) ≤
      10 * (countedTime (gaps context.reverse)).toNat := by omega
  have hsixth : (countedTime (gaps context.reverse)).toNat ≤
      6 * expectedTime (context.length - 1) := by omega
  obtain ⟨hlow, hhigh⟩ := quotient_between works.dropLast.sum hpos htime hten hsixth
  refine ⟨_, next_eq hlength hworks, ?_, ?_⟩
  · rw [max_comm]
    exact max_le_max_right _ hlow
  · rw [max_comm _ params.minimumDifficulty.toNat]
    exact max_le_max_left _ hhigh

/-- The next difficulty exists, and nothing overflows on the way to it.  It lies between a sixth and
ten times of the mean work, both rounded down and not below the minimum, and is the work of all
headers if these come at the intended times. -/
theorem next_between (params : NetworkParameters) (hlength : 2 ≤ context.length)
    (hshort : context.length < 2 ^ 28) (hworks : HaveWorks context works) :
    FitsWord (gaps context.reverse) ∧
    ∃ difficulty, next params context = .ok difficulty ∧
      max params.minimumDifficulty.toNat (works.dropLast.sum / (6 * (context.length - 1))) ≤
        difficulty ∧
      difficulty ≤
        max params.minimumDifficulty.toNat (10 * works.dropLast.sum / (context.length - 1)) ∧
      ∀ work, (∀ w ∈ works.dropLast, w = work) →
        (∀ gap ∈ gaps context.reverse, gap = targetBlockTime) →
        difficulty = max params.minimumDifficulty.toNat work := by
  have hcount : (gaps context.reverse).length + 1 < 2 ^ 28 := by
    rw [length_gaps, List.length_reverse]
    omega
  obtain ⟨difficulty, hnext, hlow, hhigh⟩ := exists_next params hlength hworks
  refine ⟨fitsWord hcount, difficulty, hnext, hlow, hhigh, ?_⟩
  intro work hsame hgaps
  have hsteady : next params context = .ok (max work params.minimumDifficulty.toNat) :=
    next_of_steady hlength hworks hsame fun gap hgap ↦ by
      rw [hgaps gap hgap]
      rfl
  rw [hnext] at hsteady
  rw [Except.ok.inj hsteady, max_comm]

theorem opening_keeps_difficulty :
    (∀ gap ∈ gaps [Sample.genesis, Sample.second, Sample.third], gap = targetBlockTime) ∧
    ∃ difficulty, next .testnet [Sample.third, Sample.second, Sample.genesis] = .ok difficulty ∧
      100000000 ≤ difficulty ∧ difficulty ≤ 1000000000 ∧ difficulty = 100000000 := by
  have hworks : HaveWorks [Sample.third, Sample.second, Sample.genesis]
      [100000000, 100000000, 100000000] := .cons rfl (.cons rfl (.cons rfl .nil))
  have hgaps : ∀ gap ∈ gaps [Sample.genesis, Sample.second, Sample.third],
      gap = targetBlockTime := by decide
  obtain ⟨-, difficulty, hnext, hlow, hhigh, hsteady⟩ :=
    next_between .testnet (by decide) (by decide) hworks
  exact ⟨hgaps, difficulty, hnext, hlow, hhigh, hsteady 100000000 (by decide) hgaps⟩

/-- More work and shorter solve times never lower the next difficulty.  What else the timestamps
are makes no difference. -/
theorem next_mono (params : NetworkParameters) {context' : List Header} {works' : List Nat}
    (hlength : 2 ≤ context.length) (hcounts : context'.length = context.length)
    (hworks : HaveWorks context works) (hworks' : HaveWorks context' works') :
    (List.Forall₂ (· ≤ ·) works works' →
      List.Forall₂ (· ≤ ·) (gaps context'.reverse) (gaps context.reverse) →
      ∃ difficulty difficulty', next params context = .ok difficulty ∧
        next params context' = .ok difficulty' ∧ difficulty ≤ difficulty') ∧
    (works = works' → gaps context.reverse = gaps context'.reverse →
      next params context = next params context') := by
  have hlength' : 2 ≤ context'.length := hcounts ▸ hlength
  rw [next_eq hlength hworks, next_eq hlength' hworks', hcounts]
  refine ⟨fun hheavier hfaster ↦ ⟨_, _, rfl, rfl, max_le_max_right _ ?_⟩, ?_⟩
  · have hsum : works.dropLast.sum ≤ works'.dropLast.sum := by
      rw [List.dropLast_eq_take, List.dropLast_eq_take, ← hheavier.length_eq]
      exact (List.forall₂_take _ hheavier).sum_le_sum
    have htime := countedTime_mono hfaster
    have hpos := countedTime_pos (gaps context'.reverse)
    have hdivisor : (context.length - 1) * (countedTime (gaps context'.reverse)).toNat ≠ 0 :=
      (Nat.mul_pos (by omega) (by omega)).ne'
    exact Nat.div_le_div (Nat.mul_le_mul_right _ hsum) (Nat.mul_le_mul_left _ (by omega)) hdivisor
  · rintro rfl hgaps
    rw [hgaps]

theorem earlier_rival_raises_difficulty :
    gaps [Sample.genesis, Sample.third] = [60] ∧ gaps [Sample.genesis, Sample.rival] = [30] ∧
    ∃ difficulty difficulty', next ⟨1, none⟩ [Sample.third, Sample.genesis] = .ok difficulty ∧
      next ⟨1, none⟩ [Sample.rival, Sample.genesis] = .ok difficulty' ∧
      difficulty ≤ difficulty' := by
  have hworks : HaveWorks [Sample.third, Sample.genesis] [100000000, 100000000] :=
    .cons rfl (.cons rfl .nil)
  have hworks' : HaveWorks [Sample.rival, Sample.genesis] [25600000000, 100000000] :=
    .cons rfl (.cons rfl .nil)
  obtain ⟨hordered, -⟩ := next_mono ⟨1, none⟩ (by decide) (by decide) hworks hworks'
  refine ⟨by decide, by decide, hordered ?heavier ?faster⟩
  case heavier => exact .cons (by decide) (.cons le_rfl .nil)
  case faster => exact .cons (by decide) .nil

end EndorsedChain.Retarget
