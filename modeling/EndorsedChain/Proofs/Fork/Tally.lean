import EndorsedChain.Index.Fork

/-!
# Keeping the score of two chains

Two chains are compared position by position: at each one a proof of either side counts or not, by
the last one of its own side, and scores against the proof of the other side.  Going through the
positions once with both scores and both last proofs at hand comes to the same totals, and it
treats both sides alike.  So the comparison from the other side is the reverse of it.
-/

namespace EndorsedChain

open VeriBlock

/-- The scores of two chains up to a position, and the proofs that counted there. -/
structure Tally where
  candidate : Nat
  incumbent : Nat
  lastCandidate : Option Nat
  lastIncumbent : Option Nat
deriving DecidableEq, Repr

namespace Tally

def start : Tally := ⟨0, 0, none, none⟩

def swap (t : Tally) : Tally := ⟨t.incumbent, t.candidate, t.lastIncumbent, t.lastCandidate⟩

/-- Adds what the proofs at the next position score. -/
def add (t : Tally) (proof other : Option Nat) : Tally where
  candidate := t.candidate + proofScore proof other
  incumbent := t.incumbent + proofScore other proof
  lastCandidate := proof
  lastIncumbent := other

def verdict (t : Tally) : Ordering := compare t.candidate t.incumbent

theorem verdict_swap (t : Tally) : t.swap.verdict = t.verdict.swap :=
  (Nat.compare_swap t.candidate t.incumbent).symm

end Tally

namespace Index

variable (i : Index)

/-- Counts the keystones at one position, where either chain may have ended. -/
def count (t : Tally) (candidate incumbent : Option Entry) : Tally :=
  t.add (candidate.bind (i.keystoneProof · t.lastCandidate))
    (incumbent.bind (i.keystoneProof · t.lastIncumbent))

/-- Goes through the next `n` positions of two chains. -/
def tally : Nat → Tally → List Entry → List Entry → Tally
  | 0, t, _, _ => t
  | n + 1, t, candidates, incumbents =>
    tally n (i.count t candidates.head? incumbents.head?) candidates.tail incumbents.tail

variable {i} {t : Tally} {candidates incumbents : List Entry} {n : Nat}

/-! ## Both sides -/

theorem count_swap (t : Tally) (candidate incumbent : Option Entry) :
    i.count t.swap incumbent candidate = (i.count t candidate incumbent).swap := rfl

/-- At no position is one side treated differently from the other. -/
theorem tally_swap (n : Nat) (t : Tally) (candidates incumbents : List Entry) :
    i.tally n t.swap incumbents candidates = (i.tally n t candidates incumbents).swap := by
  induction n generalizing t candidates incumbents with
  | zero => rfl
  | succ n ih =>
    rw [tally, tally, count_swap, ih]

/-! ## The totals -/

/-- What one position adds to the score of a side. -/
theorem totalScore_countedProofs (last other : Option Nat) (l others : List Entry) :
    totalScore (i.countedProofs last l) (i.countedProofs other others) =
      proofScore (l.head?.bind (i.keystoneProof · last))
          (others.head?.bind (i.keystoneProof · other)) +
        totalScore (i.countedProofs (l.head?.bind (i.keystoneProof · last)) l.tail)
          (i.countedProofs (others.head?.bind (i.keystoneProof · other)) others.tail) := by
  cases l with
  | nil => simp [countedProofs, totalScore]
  | cons e l => cases others <;> simp [countedProofs, totalScore]

/-- Once both chains have ended, a side has what it had before and what all its proofs score. -/
theorem candidate_tally (hcandidates : candidates.length ≤ n) :
    (i.tally n t candidates incumbents).candidate =
      t.candidate + totalScore (i.countedProofs t.lastCandidate candidates)
        (i.countedProofs t.lastIncumbent incumbents) := by
  induction n generalizing t candidates incumbents with
  | zero =>
    obtain rfl := List.length_eq_zero_iff.mp (Nat.le_zero.mp hcandidates)
    rfl
  | succ n ih =>
    rw [tally, ih (by rw [List.length_tail]; omega),
      totalScore_countedProofs t.lastCandidate t.lastIncumbent, ← Nat.add_assoc]
    rfl

theorem incumbent_tally (hincumbents : incumbents.length ≤ n) :
    (i.tally n t candidates incumbents).incumbent =
      t.incumbent + totalScore (i.countedProofs t.lastIncumbent incumbents)
        (i.countedProofs t.lastCandidate candidates) := by
  have hswap := congrArg Tally.candidate (tally_swap (i := i) n t candidates incumbents)
  exact hswap.symm.trans (candidate_tally hincumbents)

theorem length_byHeight (l : List Entry) : (byHeight l).length = l.length :=
  List.length_mergeSort _

theorem compareChains_eq_verdict (i : Index) (candidates incumbents : List Entry) :
    i.compareChains candidates incumbents =
      (i.tally (max candidates.length incumbents.length) .start (byHeight candidates)
        (byHeight incumbents)).verdict := by
  rw [Tally.verdict, candidate_tally (by rw [length_byHeight]; exact Nat.le_max_left _ _),
    incumbent_tally (by rw [length_byHeight]; exact Nat.le_max_right _ _)]
  simp only [Tally.start, Nat.zero_add]
  rfl

/-- From the other side, a comparison comes out the other way round.  No chain is better than
itself. -/
theorem comparison_reverses (i : Index) (candidates incumbents : List Entry) :
    i.compareChains incumbents candidates = (i.compareChains candidates incumbents).swap ∧
      i.compareChains candidates candidates = .eq := by
  have hreverse (a b : List Entry) : i.compareChains b a = (i.compareChains a b).swap :=
    calc i.compareChains b a
      _ = (i.tally (max b.length a.length) .start (byHeight b) (byHeight a)).verdict :=
        compareChains_eq_verdict i b a
      _ = (i.tally (max a.length b.length) .start (byHeight a) (byHeight b)).swap.verdict := by
        rw [Nat.max_comm, ← tally_swap]
        rfl
      _ = (i.compareChains a b).swap := by
        rw [Tally.verdict_swap, compareChains_eq_verdict]
  refine ⟨hreverse candidates incumbents, ?_⟩
  -- only one result is its own reverse
  have hself := hreverse candidates candidates
  revert hself
  cases i.compareChains candidates candidates <;> decide

end Index

end EndorsedChain
