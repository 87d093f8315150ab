import EndorsedChain.Difficulty.Retarget
import Mathlib.Algebra.Order.BigOperators.Group.List
import Mathlib.Tactic.Linarith
import Mathlib.Tactic.Ring

/-!
# The next difficulty as a quotient

The weighted solve times depend on the differences of neighbouring timestamps alone.  They lie
between a tenth and six times of what is expected once they are counted, and the next difficulty is
the quotient of the summed works by them, unless it is below the minimum.
-/

namespace EndorsedChain.Retarget

open VeriBlock

variable {params : NetworkParameters} {context : List Header} {works : List Nat} {work : Nat}

/-! ## Weighted solve times -/

/-- The times from each header to the next one, for a chain with its oldest header first. -/
def gaps : List Header → List Int
  | older :: newer :: rest =>
    ((newer.timestamp.toNat : Int) - older.timestamp.toNat) :: gaps (newer :: rest)
  | [_] | [] => []

/-- How much of a gap counts. -/
def clamp (gap : Int) : Int := min 180 (max (-180) gap)

theorem clamp_mono {gap gap' : Int} (hle : gap ≤ gap') : clamp gap ≤ clamp gap' :=
  min_le_min_left 180 (max_le_max_left (-180) hle)

theorem clamp_mem (gap : Int) : -180 ≤ clamp gap ∧ clamp gap ≤ 180 := by
  unfold clamp
  omega

/-- The weights count up from `weight`. -/
def weightedTime : Nat → List Int → Int
  | _, [] => 0
  | weight, gap :: rest => weight * clamp gap + weightedTime (weight + 1) rest

/-- What the headers add to the work of their chain. -/
def HaveWorks (hs : List Header) (works : List Nat) : Prop :=
  List.Forall₂ (fun h work ↦ h.work = .ok work) hs works

theorem haveWorks_replicate {hs : List Header} (h : ∀ x ∈ hs, x.work = .ok work) :
    HaveWorks hs (List.replicate hs.length work) := by
  induction hs with
  | nil => exact .nil
  | cons x hs ih =>
    rw [List.forall_mem_cons] at h
    exact .cons h.1 (ih h.2)

theorem exists_haveWorks {hs : List Header} (h : ∀ x ∈ hs, ∃ work, x.work = .ok work) :
    ∃ works, HaveWorks hs works := by
  induction hs with
  | nil => exact ⟨[], .nil⟩
  | cons x hs ih =>
    obtain ⟨⟨work, hwork⟩, hrest⟩ := List.forall_mem_cons.mp h
    obtain ⟨works, hworks⟩ := ih hrest
    exact ⟨work :: works, .cons hwork hworks⟩

theorem HaveWorks.exists_of_mem {hs : List Header} (h : HaveWorks hs works) (hwork : work ∈ works) :
    ∃ x ∈ hs, x.work = .ok work := by
  induction h with
  | nil => cases hwork
  | @cons x w _ _ hx _ ih =>
    rcases List.mem_cons.mp hwork with rfl | hrest
    · exact ⟨x, List.mem_cons_self, hx⟩
    · obtain ⟨y, hy, hyw⟩ := ih hrest
      exact ⟨y, List.mem_cons_of_mem x hy, hyw⟩

theorem length_gaps (hs : List Header) : (gaps hs).length = hs.length - 1 := by
  match hs with
  | [] | [_] => rfl
  | oldest :: newer :: rest => exact congrArg (· + 1) (length_gaps (newer :: rest))

/-- The oldest header adds nothing. -/
theorem accumulate_eq {hs : List Header} (hworks : HaveWorks hs works) (weight : Nat) :
    accumulate weight hs = .ok (weightedTime weight (gaps hs), works.tail.sum) := by
  cases hworks with
  | nil => rfl
  | @cons oldest _ rest works holdest hrest =>
    rw [List.tail_cons]
    clear holdest
    induction hrest generalizing oldest weight with
    | nil => rfl
    | @cons newer work rest works hwork _ ih =>
      rw [accumulate, hwork, ih, List.sum_cons]
      rfl

/-- The weights are consecutive numbers, so twice their sum is a product. -/
theorem weightedTime_between {gs : List Int} {low high : Int}
    (h : ∀ gap ∈ gs, low ≤ clamp gap ∧ clamp gap ≤ high) (weight : Nat) :
    low * (gs.length * (2 * weight + gs.length - 1)) ≤ 2 * weightedTime weight gs ∧
      2 * weightedTime weight gs ≤ high * (gs.length * (2 * weight + gs.length - 1)) := by
  induction gs generalizing weight with
  | nil => simp [weightedTime]
  | cons gap gs ih =>
    obtain ⟨⟨hlow, hhigh⟩, hrest⟩ := List.forall_mem_cons.mp h
    obtain ⟨ihlow, ihhigh⟩ := ih hrest (weight + 1)
    have hweight : (0 : Int) ≤ weight := Int.natCast_nonneg weight
    have hlower := mul_le_mul_of_nonneg_left hlow hweight
    have hupper := mul_le_mul_of_nonneg_left hhigh hweight
    have hproduct : ((gs.length : Int) + 1) * (2 * weight + (gs.length + 1) - 1) =
        2 * weight + gs.length * (2 * (weight + 1) + gs.length - 1) := by ring
    simp only [weightedTime, List.length_cons]
    push_cast at ihlow ihhigh ⊢
    rw [hproduct, mul_add low, mul_add high]
    constructor <;> linarith

theorem weightedTime_mono {gs gs' : List Int} (h : List.Forall₂ (· ≤ ·) gs gs') (weight : Nat) :
    weightedTime weight gs ≤ weightedTime weight gs' := by
  induction h generalizing weight with
  | nil => exact le_rfl
  | cons hgap _ ih =>
    exact add_le_add (mul_le_mul_of_nonneg_left (clamp_mono hgap) (Int.natCast_nonneg weight))
      (ih (weight + 1))

theorem two_mul_expectedTime (n : Nat) : 2 * expectedTime n = 30 * (n * (n + 1)) := by
  have heven : n * (n + 1) * 30 = 2 * (n * (n + 1) * 15) := by ring
  unfold expectedTime targetBlockTime
  rw [heven, Nat.mul_div_cancel_left _ (by decide)]
  ring

/-- The product of two neighbours is even, so no remainder is lost. -/
theorem ten_mul_expectedTime_div (n : Nat) : 10 * (expectedTime n / 10) = expectedTime n := by
  have hdouble := two_mul_expectedTime n
  obtain ⟨m, hm⟩ := Nat.even_mul_succ_self n
  change n * (n + 1) = m + m at hm
  omega

theorem expectedTime_pos {n : Nat} (hn : 0 < n) : 0 < expectedTime n := by
  have hdouble := two_mul_expectedTime n
  have hproduct : 0 < n * (n + 1) := Nat.mul_pos hn n.succ_pos
  omega

theorem expectedTime_mono {m n : Nat} (hle : m ≤ n) : expectedTime m ≤ expectedTime n := by
  have hproduct : m * (m + 1) ≤ n * (n + 1) := Nat.mul_le_mul hle (Nat.succ_le_succ hle)
  exact Nat.div_le_div_right (Nat.mul_le_mul_right _ hproduct)

/-- Against the expected time, in which each gap has 30 seconds. -/
theorem weightedTime_one_between {gs : List Int} {low high : Int}
    (h : ∀ gap ∈ gs, low ≤ clamp gap ∧ clamp gap ≤ high) :
    low * expectedTime gs.length ≤ 30 * weightedTime 1 gs ∧
      30 * weightedTime 1 gs ≤ high * expectedTime gs.length := by
  have hdouble := two_mul_expectedTime gs.length
  zify at hdouble
  obtain ⟨hlow, hhigh⟩ := weightedTime_between h 1
  have hweights : (gs.length : Int) * (2 * (1 : Nat) + gs.length - 1) =
      gs.length * (gs.length + 1) := by
    push_cast
    ring
  rw [hweights] at hlow hhigh
  have hscale : ∀ bound : Int, bound * (2 * expectedTime gs.length) =
      30 * (bound * (gs.length * (gs.length + 1))) := by
    intro bound
    rw [hdouble]
    ring
  constructor
  · linarith [hscale low]
  · linarith [hscale high]

theorem abs_weightedTime_le (gs : List Int) : |weightedTime 1 gs| ≤ 6 * expectedTime gs.length := by
  obtain ⟨hlow, hhigh⟩ := weightedTime_one_between fun gap (_ : gap ∈ gs) ↦ clamp_mem gap
  rw [abs_le]
  constructor <;> linarith

/-! ## The quotient -/

/-- Less than a tenth of the expected time is not counted. -/
def countedTime (gs : List Int) : Int :=
  max (max (weightedTime 1 gs) (expectedTime gs.length / 10 : Nat)) 1

theorem countedTime_pos (gs : List Int) : 0 < countedTime gs :=
  Int.lt_of_lt_of_le Int.one_pos (le_max_right _ _)

theorem countedTime_mono {gs gs' : List Int} (h : List.Forall₂ (· ≤ ·) gs gs') :
    countedTime gs ≤ countedTime gs' := by
  unfold countedTime
  rw [h.length_eq]
  exact max_le_max_right 1 (max_le_max_right _ (weightedTime_mono h 1))

theorem countedTime_between {gs : List Int} (hne : 0 < gs.length) :
    (expectedTime gs.length : Int) ≤ 10 * countedTime gs ∧
      countedTime gs ≤ 6 * expectedTime gs.length := by
  have hpos := expectedTime_pos hne
  have htenth := ten_mul_expectedTime_div gs.length
  have hweighted := (abs_le.mp (abs_weightedTime_le gs)).2
  unfold countedTime
  omega

theorem countedTime_of_steady {gs : List Int} (hne : 0 < gs.length)
    (h : ∀ gap ∈ gs, clamp gap = targetBlockTime) : countedTime gs = expectedTime gs.length := by
  have hpos := expectedTime_pos hne
  have htenth := ten_mul_expectedTime_div gs.length
  obtain ⟨hlow, hhigh⟩ :=
    weightedTime_one_between fun gap hgap ↦ ⟨(h gap hgap).ge, (h gap hgap).le⟩
  unfold countedTime targetBlockTime at *
  omega

/-- All works count but the one of the oldest header. -/
theorem next_eq (hlength : 2 ≤ context.length) (hworks : HaveWorks context works) :
    next params context =
      .ok (max (works.dropLast.sum * expectedTime (context.length - 1) /
        ((context.length - 1) * (countedTime (gaps context.reverse)).toNat))
          params.minimumDifficulty.toNat) := by
  have hcounted : countedTime (gaps context.reverse) =
      max (max (weightedTime 1 (gaps context.reverse))
        (expectedTime (context.length - 1) / 10 : Nat)) 1 := by
    rw [countedTime, length_gaps, List.length_reverse]
  have haccumulate : accumulate 1 context.reverse =
      .ok (weightedTime 1 (gaps context.reverse), works.dropLast.sum) := by
    rw [accumulate_eq (List.forall₂_reverse_iff.mpr hworks), List.tail_reverse, List.sum_reverse]
  rw [hcounted]
  match context, hlength with
  | newest :: older :: rest, _ =>
    unfold next
    dsimp only
    rw [haccumulate]
    rfl

/-- Retargeting gives back the work of all headers, unless it is below the minimum. -/
theorem next_of_steady (hlength : 2 ≤ context.length)
    (hworks : HaveWorks context works) (hsame : ∀ w ∈ works.dropLast, w = work)
    (hgaps : ∀ gap ∈ gaps context.reverse, clamp gap = targetBlockTime) :
    next params context = .ok (max work params.minimumDifficulty.toNat) := by
  have hcount : (gaps context.reverse).length = context.length - 1 := by
    rw [length_gaps, List.length_reverse]
  have hpos : 0 < context.length - 1 := by omega
  have hsum : works.dropLast.sum = (context.length - 1) * work := by
    rw [List.eq_replicate_iff.mpr ⟨List.length_dropLast, hsame⟩, List.sum_replicate_nat,
      ← hworks.length_eq]
  rw [next_eq hlength hworks, countedTime_of_steady (hcount ▸ hpos) hgaps, hcount, hsum,
    Int.toNat_natCast, Nat.mul_right_comm,
    Nat.mul_div_cancel_left work (Nat.mul_pos hpos (expectedTime_pos hpos))]

end EndorsedChain.Retarget
