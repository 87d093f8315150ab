import EndorsedChain.Proofs.Fork.Scoring
import EndorsedChain.Proofs.Index.Reachable
import EndorsedChain.Proofs.Sample.Leaps

/-!
# Proofs that come too late

A proof is discounted if it is too far above the proof of the keystone before it.  Once a keystone
has no proof that counts, nothing is left for the next one to be measured against, and its proof
counts wherever it is.  So the proofs that count are the ones that were accepted against the last
proof that counted exactly if none of them is too far above it.
-/

namespace EndorsedChain

open VeriBlock Sample

variable {i : Index} {e : Entry} {l : List Entry} {proofs : List (Option Nat)}
  {last best proof : Option Nat} {low high : Nat}

/-! ## Stale proofs -/

/-- No proof is too far above the last one before it, however many positions without a proof are
between them. -/
def NeverStale (proofs : List (Option Nat)) : Prop :=
  ∀ before low n high after,
    proofs = before ++ some low :: (List.replicate n none ++ some high :: after) →
      high ≤ low + bitcoinFinality

namespace NeverStale

theorem singleton (proof : Option Nat) : NeverStale [proof] := by
  intro before low n high after h
  have hlength := congrArg List.length h
  simp only [List.length_append, List.length_cons, List.length_nil] at hlength
  omega

theorem none_cons_iff : NeverStale (none :: proofs) ↔ NeverStale proofs := by
  constructor
  · rintro h before low n high after rfl
    exact h (none :: before) low n high after rfl
  · intro h before low n high after heq
    rcases List.cons_eq_append_iff.mp heq with ⟨-, hcons⟩ | ⟨rest, -, hrest⟩
    · cases hcons
    · exact h rest low n high after hrest

theorem some_none_cons_iff :
    NeverStale (some low :: none :: proofs) ↔ NeverStale (some low :: proofs) := by
  constructor
  · intro h before low' n high after heq
    rcases List.cons_eq_append_iff.mp heq with ⟨-, hcons⟩ | ⟨rest, -, rfl⟩
    · cases hcons
      exact h [] low (n + 1) high after rfl
    · exact h (some low :: none :: rest) low' n high after rfl
  · intro h before low' n high after heq
    rcases List.cons_eq_append_iff.mp heq with ⟨-, hcons⟩ | ⟨rest, -, hrest⟩
    · cases n with
      | zero => cases hcons
      | succ n =>
        cases hcons
        exact h [] low n high after rfl
    · rcases List.cons_eq_append_iff.mp hrest with ⟨-, hcons⟩ | ⟨rest, -, rfl⟩
      · cases hcons
      · exact h (some low :: rest) low' n high after rfl

theorem some_some_cons_iff : NeverStale (some low :: some high :: proofs) ↔
    high ≤ low + bitcoinFinality ∧ NeverStale (some high :: proofs) := by
  constructor
  · intro h
    refine ⟨h [] low 0 high proofs rfl, ?_⟩
    intro before low' n high' after heq
    exact h (some low :: before) low' n high' after (congrArg _ heq)
  · rintro ⟨hle, h⟩ before low' n high' after heq
    rcases List.cons_eq_append_iff.mp heq with ⟨-, hcons⟩ | ⟨rest, -, hrest⟩
    · cases n with
      | zero =>
        cases hcons
        exact hle
      | succ n => cases hcons
    · exact h rest low' n high' after hrest

/-- A proof is measured against the last one before it. -/
theorem cons_cons_iff : NeverStale (last :: proof :: proofs) ↔
    (∀ low ∈ last, ∀ high ∈ proof, high ≤ low + bitcoinFinality) ∧
      NeverStale (proof.or last :: proofs) := by
  cases last with
  | none =>
    rw [none_cons_iff, Option.or_none]
    exact ⟨fun h ↦ ⟨nofun, h⟩, And.right⟩
  | some low =>
    cases proof with
    | none =>
      rw [some_none_cons_iff, Option.none_or]
      exact ⟨fun h ↦ ⟨nofun, h⟩, And.right⟩
    | some high =>
      rw [some_some_cons_iff, Option.some_or]
      simp only [Option.mem_some_iff, forall_eq']

end NeverStale

namespace Index

/-! ## Counted and accepted proofs -/

/-- The proofs that count if each one is measured against the last one that counted. -/
def acceptedProofs (i : Index) : Option Nat → List Entry → List (Option Nat)
  | _, [] => []
  | last, keystone :: rest =>
    let proof := i.keystoneProof keystone last
    proof :: i.acceptedProofs (proof.or last) rest

theorem neverStale_acceptedProofs (i : Index) (last : Option Nat) (l : List Entry) :
    NeverStale (last :: i.acceptedProofs last l) := by
  induction l generalizing last with
  | nil => exact .singleton last
  | cons e l ih =>
    refine NeverStale.cons_cons_iff.mpr ⟨?_, ih _⟩
    intro low hlow high hhigh
    cases hlow
    exact le_of_keystoneProof hhigh

/-- Whatever comes after a proof that counts is measured against it. -/
theorem exists_countedProofs_of_eq_append {before rest : List (Option Nat)}
    (h : i.countedProofs last l = before ++ some low :: rest) :
    ∃ later, rest = i.countedProofs (some low) later := by
  induction l generalizing last before with
  | nil => simp [countedProofs] at h
  | cons e l ih =>
    cases before with
    | nil =>
      obtain ⟨hproof, hrest⟩ := List.cons.inj h
      exact ⟨l, hrest.symm.trans (congrArg (i.countedProofs · l) hproof)⟩
    | cons proof before => exact ih (List.cons.inj h).2

/-- Right behind each other, proofs that count are close enough. -/
theorem le_of_countedProofs_eq_append {before after : List (Option Nat)}
    (h : i.countedProofs last l = before ++ some low :: some high :: after) :
    high ≤ low + bitcoinFinality := by
  obtain ⟨later, hlater⟩ := exists_countedProofs_of_eq_append h
  cases later with
  | nil => cases hlater
  | cons e later => exact le_of_keystoneProof (List.cons.inj hlater).1.symm

/-- Measured against nothing or against the last proof, a proof that is not stale counts. -/
theorem keystoneProof_eq_of_fresh (hlast : last = none ∨ last = best)
    (h : ∀ low ∈ best, ∀ high ∈ i.keystoneProof e last, high ≤ low + bitcoinFinality) :
    i.keystoneProof e last = i.keystoneProof e best := by
  rcases hlast with rfl | rfl
  · rw [keystoneProof_eq_filter i e best]
    cases hproof : i.keystoneProof e none with
    | none => rfl
    | some high =>
      have hclose : best.all (high ≤ · + bitcoinFinality) = true :=
        (Option.all_eq_true _ _).mpr fun low hlow ↦ decide_eq_true (h low hlow high hproof)
      rw [Option.filter_some, if_pos hclose]
  · rfl

/-- By induction on the keystones: up to the first stale proof, what counts is what was accepted. -/
theorem countedProofs_eq_acceptedProofs (hlast : last = none ∨ last = best)
    (h : NeverStale (best :: i.countedProofs last l)) :
    i.countedProofs last l = i.acceptedProofs best l := by
  induction l generalizing last best with
  | nil => rfl
  | cons e l ih =>
    obtain ⟨hfresh, hrest⟩ := NeverStale.cons_cons_iff.mp h
    have hproof := keystoneProof_eq_of_fresh hlast hfresh
    have hnext : i.keystoneProof e last = none ∨
        i.keystoneProof e last = (i.keystoneProof e last).or best := by
      cases i.keystoneProof e last with
      | none => exact .inl rfl
      | some height => exact .inr rfl
    rw [countedProofs, acceptedProofs, ih hnext hrest, hproof]

/-- A proof that counts right behind another one is at most `bitcoinFinality` above it.  Over gaps
this holds exactly if the proofs that count are the ones that were accepted. -/
theorem counts_fresh_proofs_iff (i : Index) (keystones : List Entry) :
    (∀ before low high after,
      i.countedProofs none (byHeight keystones) = before ++ some low :: some high :: after →
        high ≤ low + bitcoinFinality) ∧
    NeverStale (i.acceptedProofs none (byHeight keystones)) ∧
    (NeverStale (i.countedProofs none (byHeight keystones)) ↔
      i.countedProofs none (byHeight keystones) =
        i.acceptedProofs none (byHeight keystones)) := by
  have haccepted : NeverStale (i.acceptedProofs none (byHeight keystones)) :=
    NeverStale.none_cons_iff.mp (i.neverStale_acceptedProofs none (byHeight keystones))
  refine ⟨fun before low high after ↦ le_of_countedProofs_eq_append, haccepted, ?_⟩
  constructor
  · intro hfresh
    exact countedProofs_eq_acceptedProofs (.inl rfl) (NeverStale.none_cons_iff.mpr hfresh)
  · intro heq
    rw [heq]
    exact haccepted

/-- Three keystones, of which the first one has an early proof and the others have a late one. -/
def sparselyProven : Index :=
  let i : Index := { params := .testnet, bitcoin := bitcoinUpTo 112 }
  (((i.add genesis bitcoinFirst.hash).1.add leap bitcoinTip.hash).1.add secondLeap
    bitcoinTip.hash).1

/-- The second proof is discounted, so that the third one counts, at the same height. -/
theorem late_proof_counts : sparselyProven.Reachable .testnet ∧
    sparselyProven.store.blocks.map (·.header) = [genesis, leap, secondLeap] ∧
    sparselyProven.countedProofs none (byHeight sparselyProven.store.blocks) =
      [some 100, none, some 112] ∧
    ¬NeverStale (sparselyProven.countedProofs none (byHeight sparselyProven.store.blocks)) := by
  have hsorted : byHeight sparselyProven.store.blocks = sparselyProven.store.blocks :=
    byHeight_of_pairwise (by decide +kernel)
  have hcounted : sparselyProven.countedProofs none (byHeight sparselyProven.store.blocks) =
      [some 100, none, some 112] := by
    rw [hsorted]
    decide +kernel
  refine ⟨?_, by decide +kernel, hcounted, fun hfresh ↦ ?_⟩
  · exact (((Reachable.start.setBitcoin (bitcoinUpTo 112)).add genesis bitcoinFirst.hash).add leap
      bitcoinTip.hash).add secondLeap bitcoinTip.hash
  · have hle := hfresh [] 100 1 112 [] hcounted
    exact absurd hle (by decide)

end Index

end EndorsedChain
