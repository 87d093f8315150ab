import EndorsedChain.Proofs.Fork.Descent
import EndorsedChain.Proofs.Fork.Scoring
import EndorsedChain.Proofs.Index.Reachable
import EndorsedChain.Proofs.Sample.Leaps

/-!
# When a header and its competitor are preferred to each other

A comparison by score is the same comparison from the other side, and so is one by work.  With the
same keystone before both, however, one header can be preferred for its work and the other one for
its score.  The cursors come across the same keystones there, so that only the two headers
themselves make a difference.  The one with less work scores no more than the other one unless it
is a keystone with a proof of its own, or a keystone is not higher than those that it goes back to
and so takes the place of another one.
-/

namespace EndorsedChain

open VeriBlock Sample

namespace ForkWalk

variable {lookup : VBlake → Option Entry} {a b d e : Entry} {v w next : ForkWalk} {m n p q : Nat}

/-! ## Trails -/

/-- The keystone that a cursor goes back to. -/
def back (lookup : VBlake → Option Entry) (e : Entry) : Option Entry :=
  lookup e.header.effectivePreviousKeystone

/-- What a cursor comes across in `n` steps. -/
def trail (lookup : VBlake → Option Entry) (e : Entry) (n : Nat) : List Entry :=
  (List.range n).filterMap fun m ↦ steps (back lookup) (m + 1) (some e)

/-- A header counts itself if it is a keystone. -/
def own (e : Entry) : List Entry := if e.header.isKeystone then [e] else []

theorem steps_back (h : steps (back lookup) n (some e) = some d) :
    steps (back lookup) (n + 1) (some e) = lookup d.header.effectivePreviousKeystone := by
  rw [steps_succ_last, h]
  rfl

theorem trail_succ (h : steps (back lookup) (n + 1) (some e) = some d) :
    trail lookup e (n + 1) = trail lookup e n ++ [d] := by
  have hlast : [n].filterMap (fun m ↦ steps (back lookup) (m + 1) (some e)) = [d] :=
    List.filterMap_cons_some h
  rw [trail, List.range_succ, List.filterMap_append, hlast]
  rfl

theorem exists_of_mem_trail (h : d ∈ trail lookup e n) :
    ∃ m, 0 < m ∧ steps (back lookup) m (some e) = some d := by
  obtain ⟨m, -, hm⟩ := List.mem_filterMap.mp h
  exact ⟨m + 1, m.succ_pos, hm⟩

/-- From the same keystone on, the ways back are the same. -/
theorem steps_eq_of_back_eq (hback : back lookup a = back lookup b) (hn : 0 < n) :
    steps (back lookup) n (some a) = steps (back lookup) n (some b) := by
  obtain ⟨m, rfl⟩ := Nat.exists_eq_add_one_of_ne_zero (Nat.ne_of_gt hn)
  rw [steps_succ, steps_succ, hback]

theorem trail_eq_of_back_eq (hback : back lookup a = back lookup b) (n : Nat) :
    trail lookup a n = trail lookup b n :=
  congrArg (List.filterMap · (List.range n))
    (funext fun m ↦ steps_eq_of_back_eq hback m.succ_pos)

/-- The walk after `p` steps of the one cursor from `a` and `q` steps of the other one from `b`. -/
structure Along (lookup : VBlake → Option Entry) (a b : Entry) (p q : Nat) (w : ForkWalk) :
    Prop where
  incumbent : steps (back lookup) p (some a) = some w.incumbent
  candidate : steps (back lookup) q (some b) = some w.candidate
  incumbents : w.incumbents = own a ++ trail lookup a p
  candidates : w.candidates = own b ++ trail lookup b q

theorem along_start (lookup : VBlake → Option Entry) (a b : Entry) :
    Along lookup a b 0 0 (start a b) where
  incumbent := rfl
  candidate := rfl
  incumbents := (List.append_nil _).symm
  candidates := (List.append_nil _).symm

theorem Along.step (h : Along lookup a b p q w) (hstep : w.step lookup = some next) :
    ∃ p' q', Along lookup a b p' q' next := by
  have hincumbent := steps_back h.incumbent
  have hcandidate := steps_back h.candidate
  rw [step_eq] at hstep
  split_ifs at hstep
  · obtain ⟨d, hlookup, rfl⟩ := Option.map_eq_some_iff.mp hstep
    rw [hlookup] at hincumbent
    refine ⟨p + 1, q, hincumbent, h.candidate, ?_, h.candidates⟩
    rw [trail_succ hincumbent, ← List.append_assoc, ← h.incumbents]
  · obtain ⟨d, hlookup, rfl⟩ := Option.map_eq_some_iff.mp hstep
    rw [hlookup] at hcandidate
    refine ⟨p, q + 1, h.incumbent, hcandidate, h.incumbents, ?_⟩
    rw [trail_succ hcandidate, ← List.append_assoc, ← h.candidates]
  · obtain ⟨d, hlookup, hstep⟩ := Option.bind_eq_some_iff.mp hstep
    obtain ⟨d', hlookup', rfl⟩ := Option.map_eq_some_iff.mp hstep
    rw [hlookup] at hincumbent
    rw [hlookup'] at hcandidate
    refine ⟨p + 1, q + 1, hincumbent, hcandidate, ?_, ?_⟩
    · rw [trail_succ hincumbent, ← List.append_assoc, ← h.incumbents]
    · rw [trail_succ hcandidate, ← List.append_assoc, ← h.candidates]

/-- No keystone comes up twice on the way back. -/
def NeverReturns (lookup : VBlake → Option Entry) (e : Entry) : Prop :=
  ∀ m n x y, m < n → steps (back lookup) m (some e) = some x →
    steps (back lookup) n (some e) = some y → x.hash ≠ y.hash

/-- Cursors on the same way back meet after the same number of steps. -/
theorem Along.eq_of_met (h : Along lookup a b p q v) (hmet : v.incumbent.hash = v.candidate.hash)
    (hback : back lookup a = back lookup b) (ha : NeverReturns lookup a)
    (hb : NeverReturns lookup b) : p = q := by
  rcases Nat.lt_trichotomy p q with hlt | heq | hlt
  · have hcandidate : steps (back lookup) q (some a) = some v.candidate :=
      (steps_eq_of_back_eq hback (Nat.zero_lt_of_lt hlt)).trans h.candidate
    exact absurd hmet (ha p q _ _ hlt h.incumbent hcandidate)
  · exact heq
  · have hincumbent : steps (back lookup) p (some b) = some v.incumbent :=
      (steps_eq_of_back_eq hback (Nat.zero_lt_of_lt hlt)).symm.trans h.incumbent
    exact absurd hmet.symm (hb q p _ _ hlt h.candidate hincumbent)

/-- With the same keystone before both, the cursors come across the same keystones. -/
theorem trails_of_met (hback : back lookup a = back lookup b) (ha : NeverReturns lookup a)
    (hb : NeverReturns lookup b) (hrun : run lookup n (start a b) = .met v) :
    ∃ p, v.incumbents = own a ++ trail lookup a p ∧ v.candidates = own b ++ trail lookup a p := by
  have hinvariant := run_invariant (P := fun w ↦ ∃ p q, Along lookup a b p q w)
    (fun ⟨_, _, h⟩ hstep ↦ h.step hstep) ⟨0, 0, along_start lookup a b⟩ hrun
  obtain ⟨⟨p, q, h⟩, hmet⟩ := hinvariant
  obtain rfl := h.eq_of_met hmet hback ha hb
  exact ⟨p, h.incumbents, trail_eq_of_back_eq hback p ▸ h.candidates⟩

end ForkWalk

namespace Index

open ForkWalk

variable {i : Index} {a b d e : Entry} {t : List Entry} {v : ForkWalk} {n : Nat}

/-! ## Scores above the same keystone -/

/-- On the way back no keystone comes up twice, and a keystone is above all that come up. -/
structure GoesDown (i : Index) (e : Entry) : Prop where
  neverReturns : NeverReturns i.lookup e
  above : e.header.isKeystone = true → ∀ n d, 0 < n →
    steps (back i.lookup) n (some e) = some d → d.height < e.height

/-- The first entry has nothing to score with that the second one has not: if it is a keystone with
a proof, so is the second one, and the proof of that one is as early. -/
structure Concedes (i : Index) (a b : Entry) : Prop where
  goesDown : i.GoesDown a
  goesDown' : i.GoesDown b
  proof : a.header.isKeystone = true → ∀ high, i.keystoneProof a none = some high →
    b.header.isKeystone = true ∧ ∃ low, low ≤ high ∧ i.keystoneProof b none = some low

theorem GoesDown.byHeight_own_append (h : i.GoesDown e)
    (ht : ∀ d ∈ t, ∃ n, 0 < n ∧ steps (back i.lookup) n (some e) = some d) :
    byHeight (own e ++ t) = byHeight t ++ own e := by
  by_cases hkeystone : e.header.isKeystone = true
  · rw [own, if_pos hkeystone]
    refine byHeight_cons_of_lt fun d hd ↦ ?_
    obtain ⟨n, hn, hsteps⟩ := ht d hd
    exact h.above hkeystone n d hn hsteps
  · rw [own, if_neg hkeystone, List.nil_append, List.append_nil]

/-- By themselves, the first entry scores no more than the second one. -/
theorem Concedes.totalScore_own_le (h : i.Concedes a b) (last : Option Nat) :
    totalScore (i.countedProofs last (own a)) (i.countedProofs last (own b)) ≤
      totalScore (i.countedProofs last (own b)) (i.countedProofs last (own a)) := by
  by_cases hkeystone : a.header.isKeystone = true
  · cases hproof : i.keystoneProof a last with
    | none =>
      rw [own, if_pos hkeystone, countedProofs, countedProofs, hproof]
      exact Nat.zero_le _
    | some high =>
      have hraw : i.keystoneProof a none = some high := by
        rw [keystoneProof_eq_filter, Option.filter_eq_some_iff] at hproof
        exact hproof.1
      obtain ⟨hkeystone', low, hle, hlow⟩ := h.proof hkeystone high hraw
      rw [own, own, if_pos hkeystone, if_pos hkeystone', countedProofs, countedProofs,
        countedProofs, countedProofs, hproof, keystoneProof_of_le hproof hlow hle]
      simp only [totalScore, List.head?_cons, Option.join_some, proofScore_of_le hle]
      exact Nat.add_le_add_right (proofScore_le _ _) 0
  · rw [own, if_neg hkeystone, countedProofs]
    exact Nat.zero_le _

/-- Both sides score the same with the keystones that they share. -/
theorem Concedes.score_le (h : i.Concedes a b) (hback : back i.lookup b = back i.lookup a)
    (hrun : run i.lookup n (start b a) = .met v) :
    i.score (byHeight v.candidates) (byHeight v.incumbents) ≤
      i.score (byHeight v.incumbents) (byHeight v.candidates) := by
  obtain ⟨p, hincumbents, hcandidates⟩ :=
    trails_of_met hback h.goesDown'.neverReturns h.goesDown.neverReturns hrun
  have hincumbents' : byHeight v.incumbents = byHeight (trail i.lookup b p) ++ own b := by
    rw [hincumbents]
    exact h.goesDown'.byHeight_own_append fun d ↦ exists_of_mem_trail
  have hcandidates' : byHeight v.candidates = byHeight (trail i.lookup b p) ++ own a := by
    rw [hcandidates, trail_eq_of_back_eq hback]
    exact h.goesDown.byHeight_own_append fun d ↦ exists_of_mem_trail
  obtain ⟨last, happend⟩ := i.exists_countedProofs_append none (byHeight (trail i.lookup b p))
  rw [hincumbents', hcandidates', score, score, happend, happend, totalScore_append rfl,
    totalScore_append rfl]
  exact Nat.add_le_add_left (h.totalScore_own_le last) _

theorem Outworks.back_eq (h : Outworks b a) (lookup : VBlake → Option Entry) :
    back lookup a = back lookup b := congrArg lookup h.1

/-- Two headers are not both preferred to each other, unless one of them has more work above the
same keystone and the other one can score more. -/
theorem prefers_asymmetric (i : Index) (head candidate : Entry)
    (hhead : Outworks candidate head → i.Concedes head candidate)
    (hcandidate : Outworks head candidate → i.Concedes candidate head) :
    ¬(i.prefers head candidate = true ∧ i.prefers candidate head = true) := by
  rintro ⟨hprefers, hprefers'⟩
  rcases prefers_eq_true_iff.mp hprefers with hwork | ⟨walk, hrun, hscore⟩ <;>
    rcases prefers_eq_true_iff.mp hprefers' with hwork' | ⟨walk', hrun', hscore'⟩
  · exact Nat.lt_asymm hwork.2 hwork'.2
  · have hle := (hhead hwork).score_le (hwork.back_eq i.lookup).symm hrun'
    exact Nat.not_lt.mpr hle hscore'
  · have hle := (hcandidate hwork').score_le (hwork'.back_eq i.lookup).symm hrun
    exact Nat.not_lt.mpr hle hscore
  · -- the walk from the other side is the same walk
    have hswap := run_swap i.lookup i.forkSteps (start head candidate)
    rw [hrun] at hswap
    obtain rfl : walk' = walk.swap := Outcome.met.inj (hrun'.symm.trans hswap)
    exact Nat.lt_asymm hscore hscore'

/-! ## Competing keystones -/

/-- An entry that goes back to a first keystone, which goes back to nothing. -/
theorem goesDown_of_back (hback : back i.lookup e = some d) (hfirst : back i.lookup d = none)
    (hhash : e.hash ≠ d.hash) (hheight : d.height < e.height) : i.GoesDown e := by
  have hsteps : steps (back i.lookup) 1 (some e) = some d := hback
  have hend : steps (back i.lookup) 2 (some e) = none := by
    rw [steps_succ, hback, steps_succ, hfirst, steps_none]
  have hle {m : Nat} {x : Entry} (hx : steps (back i.lookup) m (some e) = some x) : m ≤ 1 := by
    by_contra hlt
    rw [steps_eq_none_of_le _ (Nat.lt_of_not_le hlt) hend] at hx
    cases hx
  constructor
  · intro m n x y hlt hx hy
    have hn := hle hy
    obtain rfl : m = 0 := by omega
    obtain rfl : n = 1 := by omega
    cases hx
    cases hsteps.symm.trans hy
    exact hhash
  · intro _ n x hn hx
    obtain rfl : n = 1 := Nat.le_antisymm (hle hx) hn
    cases hsteps.symm.trans hx
    exact hheight

/-- Two keystones after the same first one.  The one with less work has a late proof. -/
def contested (rivalProof : Digest) : Index :=
  let i : Index := { params := .testnet, bitcoin := bitcoinUpTo 111 }
  (((i.add genesis .zero).1.add leap bitcoinTip.hash).1.add rivalLeap rivalProof).1

theorem reachable_contested (rivalProof : Digest) : (contested rivalProof).Reachable .testnet :=
  (((Reachable.start.setBitcoin (bitcoinUpTo 111)).add genesis .zero).add leap
    bitcoinTip.hash).add rivalLeap rivalProof

/-- Against a competitor with more work and an earlier proof, the late proof is not enough. -/
theorem late_leap_not_preferred :
    let i := contested bitcoinFirst.hash
    let a := leapEntry bitcoinTip.hash
    let b := rivalLeapEntry bitcoinFirst.hash
    i.Reachable .testnet ∧ a ∈ i.store.blocks ∧ b ∈ i.store.blocks ∧ Outworks b a ∧
      i.Concedes a b ∧ i.keystoneProof a none = some 111 ∧
        ¬(i.prefers a b = true ∧ i.prefers b a = true) := by
  intro i a b
  let g : Entry := ⟨genesis, 100000000, bitcoinFirst.hash⟩
  have hwork : Outworks b a := ⟨rfl, by decide⟩
  have hfirst : back i.lookup g = none := by decide +kernel
  have hlate : i.keystoneProof a none = some 111 := by decide +kernel
  have hearly : i.keystoneProof b none = some 100 := by decide +kernel
  have hdown : i.GoesDown a :=
    goesDown_of_back (d := g) (by decide +kernel) hfirst (by decide) (by decide)
  have hdown' : i.GoesDown b :=
    goesDown_of_back (d := g) (by decide +kernel) hfirst (by decide) (by decide)
  have hconcedes : i.Concedes a b := by
    refine ⟨hdown, hdown', fun _ high hhigh ↦ ?_⟩
    obtain rfl : 111 = high := Option.some.inj (hlate.symm.trans hhigh)
    exact ⟨by decide, 100, by decide, hearly⟩
  refine ⟨reachable_contested _, by decide +kernel, by decide +kernel, hwork, hconcedes, hlate,
    prefers_asymmetric i a b (fun _ ↦ hconcedes) fun hother ↦ ?_⟩
  exact absurd hother.2 (Nat.lt_asymm hwork.2)

/-- A keystone that goes back to a higher one, and a competitor with more work. -/
def misplaced : Index :=
  let i : Index := { params := .testnet, bitcoin := bitcoinUpTo 111 }
  (((((i.add genesis bitcoinFirst.hash).1.add leap bitcoinFirst.hash).1.add secondLeap
    bitcoinTip.hash).1.add backwardLeap .zero).1.add heavyStep .zero).1

theorem reachable_misplaced : misplaced.Reachable .testnet :=
  (((((Reachable.start.setBitcoin (bitcoinUpTo 111)).add genesis bitcoinFirst.hash).add leap
    bitcoinFirst.hash).add secondLeap bitcoinTip.hash).add backwardLeap .zero).add heavyStep .zero

/-- Against a competitor without a proof, it is. -/
theorem leap_preferred_to_rival :
    (contested .zero).prefers (rivalLeapEntry .zero) (leapEntry bitcoinTip.hash) = true := by
  let g : Entry := ⟨genesis, 100000000, bitcoinTip.hash⟩
  let a : Entry := leapEntry bitcoinTip.hash
  let b : Entry := rivalLeapEntry .zero
  have hrun : run (contested .zero).lookup (contested .zero).forkSteps (start b a) =
      .met ⟨g, g, [b, g], [a, g]⟩ := by decide +kernel
  have hfirst : byHeight [g] = [g] := byHeight_of_pairwise (List.pairwise_singleton _ _)
  have hincumbents : byHeight [b, g] = [g, b] := by
    rw [byHeight_cons_of_lt (by decide), hfirst]
    rfl
  have hcandidates : byHeight [a, g] = [g, a] := by
    rw [byHeight_cons_of_lt (by decide), hfirst]
    rfl
  refine prefers_eq_true_iff.mpr (.inr ⟨_, hrun, ?_⟩)
  rw [hincumbents, hcandidates]
  decide +kernel

/-- Between the keystones that both share, one without a proof shifts the others. -/
theorem backward_preferred_to_heavy : misplaced.prefers heavyEntry backwardEntry = true := by
  let g : Entry := ⟨genesis, 100000000, bitcoinFirst.hash⟩
  let l : Entry := leapEntry bitcoinFirst.hash
  let k : Entry := ⟨secondLeap, 300000000, bitcoinTip.hash⟩
  have hrun : run misplaced.lookup misplaced.forkSteps (start heavyEntry backwardEntry) =
      .met ⟨g, g, [k, l, g], [backwardEntry, k, l, g]⟩ := by decide +kernel
  have hincumbents : byHeight [k, l, g] = [g] ++ [l, k] :=
    byHeight_eq_of_perm (List.reverse_perm [g, l, k]) (by decide)
  have hcandidates : byHeight [backwardEntry, k, l, g] = [g] ++ backwardEntry :: [l, k] :=
    byHeight_cons hincumbents (by decide) (by decide)
  refine prefers_eq_true_iff.mpr (.inr ⟨_, hrun, ?_⟩)
  rw [hincumbents, hcandidates]
  decide +kernel

/-- A keystone with the only proof is preferred for its score to the one that is preferred for its
work.  So is an unproven one in the wrong place. -/
theorem competitors_prefer_each_other :
    ((contested .zero).Reachable .testnet ∧
      leapEntry bitcoinTip.hash ∈ (contested .zero).store.blocks ∧
      rivalLeapEntry .zero ∈ (contested .zero).store.blocks ∧
      (contested .zero).prefers (leapEntry bitcoinTip.hash) (rivalLeapEntry .zero) = true ∧
      (contested .zero).prefers (rivalLeapEntry .zero) (leapEntry bitcoinTip.hash) = true) ∧
    misplaced.Reachable .testnet ∧
      backwardEntry ∈ misplaced.store.blocks ∧ heavyEntry ∈ misplaced.store.blocks ∧
      misplaced.keystoneProof backwardEntry none = none ∧
      misplaced.prefers backwardEntry heavyEntry = true ∧
      misplaced.prefers heavyEntry backwardEntry = true :=
  ⟨⟨reachable_contested _, by decide +kernel, by decide +kernel, by decide +kernel,
    leap_preferred_to_rival⟩,
    reachable_misplaced, by decide +kernel, by decide +kernel, by decide +kernel,
    by decide +kernel, backward_preferred_to_heavy⟩

end Index

end EndorsedChain
