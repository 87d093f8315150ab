import EndorsedChain.Index.Basic

/-!
# Fork choice

The chains of the head and of a candidate are walked back keystone by keystone to where they meet.
Their keystones are then compared by the Bitcoin headers that hold their proofs: the earlier a
keystone was endorsed, the more it scores.
-/

namespace EndorsedChain

open VeriBlock

/-- How far above the proof before it a proof may be and still count. -/
def bitcoinFinality : Nat := 11

/-- What a proof scores, by how many Bitcoin headers it is behind the competing one. -/
def forkWeights : List Nat := [100, 100, 95, 89, 80, 69, 56, 40, 21]

/-- The score of a proof at a Bitcoin height against the competing proof. -/
def proofScore : Option Nat → Option Nat → Nat
  | none, _ => 0
  | some _, none => forkWeights.headD 0
  | some height, some other => forkWeights.getD (height - other) 0

/-- The score of one list of proofs against another, position by position. A counter of four bytes
is enough for it unless there are more than 42 949 672 proofs (`Index.score_lt_size`). -/
def totalScore : List (Option Nat) → List (Option Nat) → Nat
  | [], _ => 0
  | proof :: proofs, others => proofScore proof others.head?.join + totalScore proofs others.tail

@[simp] theorem proofScore_none (other : Option Nat) : proofScore none other = 0 := rfl

/-- The walk of two cursors down to a common keystone, with the entries met on the way. -/
structure ForkWalk where
  incumbent : Entry
  candidate : Entry
  incumbents : List Entry
  candidates : List Entry
deriving DecidableEq, Repr

namespace ForkWalk

def start (head candidate : Entry) : ForkWalk where
  incumbent := head
  candidate := candidate
  incumbents := if head.header.isKeystone then [head] else []
  candidates := if candidate.header.isKeystone then [candidate] else []

variable (lookup : VBlake → Option Entry)

def stepIncumbent (w : ForkWalk) : Option ForkWalk := do
  let next ← lookup w.incumbent.header.effectivePreviousKeystone
  return { w with incumbent := next, incumbents := w.incumbents ++ [next] }

def stepCandidate (w : ForkWalk) : Option ForkWalk := do
  let next ← lookup w.candidate.header.effectivePreviousKeystone
  return { w with candidate := next, candidates := w.candidates ++ [next] }

/-- The cursor with the higher keystone index goes back one keystone; with equal indexes both
do. -/
def step (w : ForkWalk) : Option ForkWalk :=
  if w.candidate.keystoneIndex < w.incumbent.keystoneIndex then w.stepIncumbent lookup
  else if w.incumbent.keystoneIndex < w.candidate.keystoneIndex then w.stepCandidate lookup
  else (w.stepIncumbent lookup).bind (stepCandidate lookup)

inductive Outcome where
  | met (walk : ForkWalk)
  /-- A keystone is unknown. -/
  | lost
  | unfinished
deriving DecidableEq, Repr

/-- At most `count` steps. -/
def run : Nat → ForkWalk → Outcome
  | count, w =>
    if w.incumbent.hash = w.candidate.hash then .met w
    else
      match count, w.step lookup with
      | 0, _ => .unfinished
      | _, none => .lost
      | count + 1, some next => run count next

end ForkWalk

namespace Index

/-- The height of the Bitcoin header that holds the proof of a keystone, on the best Bitcoin chain.
A proof too far above the last one is ignored. -/
def keystoneProof (i : Index) (keystone : Entry) (last : Option Nat) : Option Nat := do
  let known ← i.lookup keystone.hash
  guard known.hasProof
  let proof ← i.bitcoin.scanBest known.proof
  let height := proof.height.toNat
  guard (last.all (height ≤ · + bitcoinFinality))
  return height

/-- The proofs of keystones that count. `last` is the one at the position before. -/
def countedProofs (i : Index) : Option Nat → List Entry → List (Option Nat)
  | _, [] => []
  | last, keystone :: rest =>
    let proof := i.keystoneProof keystone last
    proof :: i.countedProofs proof rest

def byHeight (entries : List Entry) : List Entry :=
  entries.mergeSort fun a b => decide (a.height ≤ b.height)

/-- Scores two lists of keystones against each other. -/
def compareChains (i : Index) (candidates incumbents : List Entry) : Ordering :=
  let candidates := i.countedProofs none (byHeight candidates)
  let incumbents := i.countedProofs none (byHeight incumbents)
  compare (totalScore candidates incumbents) (totalScore incumbents candidates)

/-- More steps than two cursors can take without coming to the same pair of entries again, from
where on they would never stop. -/
def forkSteps (i : Index) : Nat := (i.knownCount + 1) * (i.knownCount + 1)

/-- Whether the candidate should take the place of the head. With the same keystone before both,
more work is enough. -/
def prefers (i : Index) (head candidate : Entry) : Bool :=
  if head.header.effectivePreviousKeystone.agrees candidate.header.effectivePreviousKeystone
      && decide (head.work < candidate.work) then true
  else
    match ForkWalk.run i.lookup i.forkSteps (.start head candidate) with
    | .met walk => i.compareChains walk.candidates walk.incumbents == .gt
    | .lost | .unfinished => false

end Index

end EndorsedChain
