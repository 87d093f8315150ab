import EndorsedChain.Index.Fork
import EndorsedChain.Proofs.Hash.Agreement
import Mathlib.Data.List.Pairwise
import Mathlib.Data.Option.Basic

/-!
# Keystones in order and what their proofs score

Keystones are compared in the order of their heights, each by the proof that counts for it.  What
counts for the later ones does not matter to the earlier ones, and lists of the same length are
compared on their own.  A candidate is preferred if it has more work above the same keystone, or if
its keystones score more.
-/

namespace EndorsedChain

open VeriBlock

variable {i : Index} {e head candidate : Entry} {l sorted : List Entry} {last : Option Nat}
  {low high height : Nat}

theorem proofScore_le (proof other : Option Nat) : proofScore proof other ≤ 100 := by
  have hweights : ∀ weight ∈ forkWeights, weight ≤ 100 := by decide
  cases proof with
  | none => exact Nat.zero_le 100
  | some height =>
    cases other with
    | none => exact Nat.le_refl 100
    | some other =>
      rw [proofScore, List.getD_eq_getElem?_getD]
      cases hweight : forkWeights[height - other]? with
      | none => exact Nat.zero_le 100
      | some weight => exact hweights weight (List.mem_of_getElem? hweight)

/-- A proof that is as early as the competing one scores most. -/
theorem proofScore_of_le (h : low ≤ high) : proofScore (some low) (some high) = 100 := by
  rw [proofScore, Nat.sub_eq_zero_of_le h]
  rfl

theorem totalScore_le (proofs others : List (Option Nat)) :
    totalScore proofs others ≤ 100 * proofs.length := by
  induction proofs generalizing others with
  | nil => exact Nat.zero_le _
  | cons proof proofs ih =>
    have hproof := proofScore_le proof others.head?.join
    have hrest := ih others.tail
    rw [totalScore, List.length_cons]
    omega

/-- Lists of the same length at the front are compared on their own. -/
theorem totalScore_append {proofs others : List (Option Nat)}
    (hlength : proofs.length = others.length) (more others' : List (Option Nat)) :
    totalScore (proofs ++ more) (others ++ others') =
      totalScore proofs others + totalScore more others' := by
  induction proofs generalizing others with
  | nil =>
    obtain rfl := List.length_eq_zero_iff.mp hlength.symm
    rw [List.nil_append, List.nil_append, totalScore, Nat.zero_add]
  | cons proof proofs ih =>
    cases others with
    | nil => cases hlength
    | cons other others =>
      rw [List.cons_append, List.cons_append, totalScore, totalScore, List.head?_cons,
        List.head?_cons, List.tail_cons, List.tail_cons, ih (Nat.succ.inj hlength), Nat.add_assoc]

namespace Index

/-! ## Order -/

theorem height_le_trans (a b c : Entry) (hab : decide (a.height ≤ b.height) = true)
    (hbc : decide (b.height ≤ c.height) = true) : decide (a.height ≤ c.height) = true :=
  decide_eq_true (UInt32.le_trans (of_decide_eq_true hab) (of_decide_eq_true hbc))

theorem height_le_total (a b : Entry) :
    (decide (a.height ≤ b.height) || decide (b.height ≤ a.height)) = true := by
  simpa using UInt32.le_total a.height b.height

theorem pairwise_byHeight (l : List Entry) :
    (byHeight l).Pairwise fun a b ↦ a.height ≤ b.height :=
  (List.pairwise_mergeSort height_le_trans height_le_total l).imp of_decide_eq_true

theorem byHeight_of_pairwise (h : l.Pairwise fun a b ↦ a.height ≤ b.height) : byHeight l = l :=
  List.mergeSort_of_pairwise (h.imp decide_eq_true)

/-- Sorting brings entries at different heights in their only order. -/
theorem byHeight_eq_of_perm (hperm : l.Perm sorted)
    (hsorted : sorted.Pairwise fun a b ↦ a.height < b.height) : byHeight l = sorted := by
  have hbyHeight : (byHeight l).Perm sorted := (List.mergeSort_perm l _).trans hperm
  have hne : sorted.Pairwise fun a b ↦ a.height ≠ b.height := hsorted.imp UInt32.ne_of_lt
  refine List.Perm.eq_of_pairwise (fun a b ha hb hab hba ↦ ?_) (pairwise_byHeight l)
    (hsorted.imp UInt32.le_of_lt) hbyHeight
  have : Std.Symm fun a b : Entry ↦ a.height ≠ b.height := ⟨fun _ _ ↦ Ne.symm⟩
  by_contra hab'
  exact hne.forall (hbyHeight.mem_iff.mp ha) hb hab' (UInt32.le_antisymm hab hba)

/-- An entry comes before those that are as high as it is and were after it. -/
theorem byHeight_cons {before after : List Entry} (hl : byHeight l = before ++ after)
    (hbefore : ∀ d ∈ before, d.height < e.height) (hafter : ∀ d ∈ after, e.height ≤ d.height) :
    byHeight (e :: l) = before ++ e :: after := by
  have hlower {x y : List Entry} (hx : ∀ d ∈ x, d.height < e.height)
      (hy : ∀ d ∈ y, e.height ≤ d.height) : (x ++ y).filter (·.height < e.height) = x := by
    rw [List.filter_append, List.filter_eq_self.mpr fun d hd ↦ decide_eq_true (hx d hd),
      List.filter_eq_nil_iff.mpr fun d hd ↦ by simpa using hy d hd, List.append_nil]
  obtain ⟨x, y, hcons, hrest, hx⟩ := List.mergeSort_cons height_le_trans height_le_total e l
  have hsorted := pairwise_byHeight (e :: l)
  rw [byHeight, hcons] at hsorted
  have hy := (List.pairwise_cons.mp (List.pairwise_append.mp hsorted).2.1).1
  have heq : x ++ y = before ++ after := hrest.symm.trans hl
  obtain rfl : x = before := by
    have hfilter := hlower (by simpa using hx) hy
    rw [heq, hlower hbefore hafter] at hfilter
    exact hfilter.symm
  obtain rfl := List.append_cancel_left heq
  exact hcons

/-- The highest entry comes last. -/
theorem byHeight_cons_of_lt (hlt : ∀ d ∈ l, d.height < e.height) :
    byHeight (e :: l) = byHeight l ++ [e] :=
  byHeight_cons (List.append_nil _).symm
    (fun d hd ↦ hlt d ((List.mergeSort_perm l _).mem_iff.mp hd)) nofun

/-! ## Proofs that count -/

theorem keystoneProof_eq_some_iff : i.keystoneProof e last = some height ↔
    (∃ known, i.lookup e.hash = some known ∧ known.hasProof = true ∧
      ∃ proof, i.bitcoin.scanBest known.proof = some proof ∧ proof.height.toNat = height) ∧
    last.all (height ≤ · + bitcoinFinality) = true := by
  simp only [keystoneProof, Option.bind_eq_bind, Option.bind_eq_some_iff, Option.guard_eq_some',
    Option.pure_def, Option.some.injEq]
  constructor
  · rintro ⟨known, hlookup, -, hproof, proof, hscan, -, hlast, rfl⟩
    exact ⟨⟨known, hlookup, hproof, proof, hscan, rfl⟩, hlast⟩
  · rintro ⟨⟨known, hlookup, hproof, proof, hscan, rfl⟩, hlast⟩
    exact ⟨known, hlookup, (), hproof, proof, hscan, (), hlast, rfl⟩

/-- The last proof only discounts. -/
theorem keystoneProof_eq_filter (i : Index) (e : Entry) (last : Option Nat) :
    i.keystoneProof e last =
      (i.keystoneProof e none).filter fun height ↦ last.all (height ≤ · + bitcoinFinality) := by
  ext height
  rw [Option.filter_eq_some_iff, keystoneProof_eq_some_iff, keystoneProof_eq_some_iff,
    Option.all_none]
  simp only [and_true]

theorem le_of_keystoneProof (h : i.keystoneProof e (some low) = some high) :
    high ≤ low + bitcoinFinality := by
  rw [keystoneProof_eq_filter, Option.filter_eq_some_iff] at h
  exact of_decide_eq_true h.2

/-- If a proof counts, so does an earlier one. -/
theorem keystoneProof_of_le {d : Entry} (h : i.keystoneProof e last = some high)
    (hd : i.keystoneProof d none = some low) (hle : low ≤ high) :
    i.keystoneProof d last = some low := by
  rw [keystoneProof_eq_filter, Option.filter_eq_some_iff, Option.all_eq_true] at h
  rw [keystoneProof_eq_filter, Option.filter_eq_some_iff, Option.all_eq_true]
  exact ⟨hd, fun height hheight ↦
    decide_eq_true (Nat.le_trans hle (of_decide_eq_true (h.2 height hheight)))⟩

@[simp] theorem length_countedProofs (i : Index) (last : Option Nat) (l : List Entry) :
    (i.countedProofs last l).length = l.length := by
  induction l generalizing last with
  | nil => rfl
  | cons e l ih => exact congrArg Nat.succ (ih (i.keystoneProof e last))

/-- Later keystones leave the earlier ones alone. -/
theorem exists_countedProofs_append (i : Index) (last : Option Nat) (l : List Entry) :
    ∃ last', ∀ more, i.countedProofs last (l ++ more) =
      i.countedProofs last l ++ i.countedProofs last' more := by
  induction l generalizing last with
  | nil => exact ⟨last, fun more ↦ rfl⟩
  | cons e l ih =>
    obtain ⟨last', h⟩ := ih (i.keystoneProof e last)
    exact ⟨last', fun more ↦ congrArg (i.keystoneProof e last :: ·) (h more)⟩

/-! ## Preference -/

/-- What keystones score against those of another chain, both in order of height. -/
def score (i : Index) (keystones others : List Entry) : Nat :=
  totalScore (i.countedProofs none keystones) (i.countedProofs none others)

/-- A score has four bytes as long as there are no more keystones than those of 858 993 440
headers. -/
theorem score_lt_size {keystones : List Entry} (hlength : keystones.length ≤ 42949672)
    (others : List Entry) : i.score keystones others < UInt32.size := by
  have hscore : i.score keystones others ≤ 100 * keystones.length :=
    (totalScore_le _ _).trans_eq (by rw [length_countedProofs])
  unfold UInt32.size
  omega

/-- With the same keystone before both, the candidate has more work. -/
def Outworks (candidate head : Entry) : Prop :=
  head.header.effectivePreviousKeystone = candidate.header.effectivePreviousKeystone ∧
    head.work < candidate.work

theorem prefers_eq_true_iff : i.prefers head candidate = true ↔ Outworks candidate head ∨
    ∃ walk, ForkWalk.run i.lookup i.forkSteps (.start head candidate) = .met walk ∧
      i.score (byHeight walk.incumbents) (byHeight walk.candidates) <
        i.score (byHeight walk.candidates) (byHeight walk.incumbents) := by
  have hagrees : (head.header.effectivePreviousKeystone.agrees
      candidate.header.effectivePreviousKeystone && decide (head.work < candidate.work)) = true ↔
        Outworks candidate head := by
    rw [Bool.and_eq_true, decide_eq_true_eq, VBlake.agrees_iff_eq]
    · rfl
    · rw [Header.length_effectivePreviousKeystone, Header.length_effectivePreviousKeystone]
  unfold prefers
  rw [← hagrees]
  split
  · rename_i hfast
    exact ⟨fun _ ↦ .inl hfast, fun _ ↦ rfl⟩
  · rename_i hslow
    rw [or_iff_right hslow]
    cases hrun : ForkWalk.run i.lookup i.forkSteps (.start head candidate) with
    | met walk => simp [compareChains, score, Nat.compare_eq_gt]
    | lost => simp
    | unfinished => simp

end Index

end EndorsedChain
