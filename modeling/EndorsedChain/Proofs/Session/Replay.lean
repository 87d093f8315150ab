import EndorsedChain.Proofs.Journal.Redo
import EndorsedChain.Proofs.Sample.Openings
import EndorsedChain.Proofs.Session.Rewind

/-!
# Replaying what a call has done

The changes that a call returns are all that it did to the store: carried out again on the store
before the call, they lead to the store after it, and on the way each of them says what is stored
before it.
-/

namespace EndorsedChain.Session

open VeriBlock

variable {a : Session} {r : Reply} {c : Call} {changes : List Change}

/-- Only mutations return changes. -/
theorem isPersistent_of_returned (hcall : a.call c = some r)
    (hreturned : r.session.journal = changes :: a.journal) : c.isPersistent = true := by
  have hne : a.journal ≠ changes :: a.journal := fun heq ↦ by
    simpa using congrArg List.length heq
  cases c with
  | add | addAll | prove | setBitcoin => rfl
  | addTemporarily | addAllTemporarily | proveTemporarily | clearTemporary =>
    cases hcall
    exact absurd hreturned hne
  | rewind count =>
    simp only [call] at hcall
    split at hcall
    · cases hcall
      have hlength := congrArg List.length hreturned
      rw [List.length_drop, List.length_cons] at hlength
      omega
    · cases hcall
      exact absurd hreturned hne

/-- What a call returns and what it does to the store. -/
theorem mutations_of_returned {known : Set Header} (hheaded : a.index.store.Headed known)
    (hmem : ∀ h ∈ c.headers, h ∈ known) (hcall : a.call c = some r)
    (hreturned : r.session.journal = changes :: a.journal) :
    ∃ edits, Mutations known a.index.store edits r.session.index.store ∧
      edits.mapM Edit.toChange? = some changes := by
  obtain ⟨-, ⟨hjournal, -⟩ | ⟨changes', edits, hjournal, hmutations, hchanges⟩⟩ :=
    call_persistent hheaded hmem (isPersistent_of_returned hcall hreturned) hcall
  · rw [hjournal] at hreturned
    simpa using congrArg List.length hreturned
  · obtain ⟨rfl, -⟩ := List.cons.inj (hjournal.symm.trans hreturned)
    exact ⟨edits, hmutations, hchanges⟩

/-- Replaying the changes that a call returns on the store before the call gives the store after it,
bucket by bucket.  Each change says what the replay has stored before it; the placeholder, which
stands for the head before the first one, is never stored. -/
theorem replay_matches {params : NetworkParameters} {before : List Call} {c : Call}
    {changes : List Change} {s : Session} {r : Reply}
    (hkeys : KeysDistinct {h | h ∈ (before ++ [c]).flatMap Call.headers})
    (hbefore : (start params).run before = some s) (hcall : s.call c = some r)
    (hreturned : r.session.journal = changes :: s.journal) :
    Edit.placeholder ∉ s.index.store.blocks ∧
      ∃ u, Replays s.index.store changes u ∧
        u.bucket = r.session.index.store.bucket ∧ u.size = r.session.index.store.size ∧
        u.headId = r.session.index.store.headId ∧
        (∀ hash, u.get hash = r.session.index.store.get hash) ∧
        u.head = r.session.index.store.head := by
  rw [List.flatMap_append, List.flatMap_singleton] at hkeys
  have hbacked : Backed {h | h ∈ before.flatMap Call.headers ++ c.headers}
      s.journal s.index.store :=
    backed_run (backed_start params) (fun h hh ↦ List.mem_append_left _ hh) hbefore
  have hheaded := hbacked.headed
  obtain ⟨edits, hmutations, hchanges⟩ := mutations_of_returned hheaded
    (fun h hh ↦ List.mem_append_right _ hh) hcall hreturned
  have hafter := (hmutations.headed hheaded).toHolds
  obtain ⟨u, hreplays, hu, hsame⟩ := (hmutations.journals hheaded).replays hheaded.toSound hchanges
    hheaded.keyed (Store.Same.refl _)
  have hholds := hafter.of_same hu hsame
  exact ⟨fun hmem ↦ hheaded.ne_placeholder hmem rfl, u, hreplays, hsame.bucket hkeys hholds hafter,
    hsame.size, hsame.headId, hsame.get hkeys hholds hafter, hsame.head hkeys hholds hafter⟩

open Sample in
/-- The second header is stored, its proof is attached to the first one, and it becomes the head. -/
theorem replay_of_second : ∃ s r changes,
    (start .testnet).run [.add genesis .zero] = some s ∧
      s.call (.add second (.sha256 [])) = some r ∧ r.session.journal = changes :: s.journal ∧
      changes.map (·.operation) = [.addBlock, .setProof, .setHead] ∧
      ∃ u, Replays s.index.store changes u ∧ u.bucket = r.session.index.store.bucket ∧
        u.head = r.session.index.store.head := by
  have hmap : (((start .testnet).run [.add genesis .zero]).bind fun s ↦
      (s.call (.add second (.sha256 []))).map fun r ↦
        (r.session.journal.head?.map (List.map (·.operation)),
          decide (r.session.journal.tail = s.journal))) =
            some (some [.addBlock, .setProof, .setHead], true) := by decide +kernel
  obtain ⟨s, hbefore, hs⟩ := Option.bind_eq_some_iff.mp hmap
  obtain ⟨r, hcall, hr⟩ := Option.map_eq_some_iff.mp hs
  obtain ⟨hfirst, htail⟩ := Prod.mk.inj hr
  obtain ⟨changes, hchanges, hoperations⟩ := Option.map_eq_some_iff.mp hfirst
  have hreturned : r.session.journal = changes :: s.journal := by
    rw [← of_decide_eq_true htail]
    exact (List.cons_head?_tail hchanges).symm
  obtain ⟨-, u, hreplays, hbucket, -, -, -, hhead⟩ :=
    replay_matches (by decide +kernel) hbefore hcall hreturned
  exact ⟨s, r, changes, hbefore, hcall, hreturned, hoperations, u, hreplays, hbucket, hhead⟩

end EndorsedChain.Session
