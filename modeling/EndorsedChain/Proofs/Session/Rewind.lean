import EndorsedChain.Proofs.Index.Temporary
import EndorsedChain.Proofs.Sample.Leaps
import EndorsedChain.Proofs.Session.Backed

/-!
# Rewinding what a session has done

The journal backs the store after every call of a session, temporary ones and rewinds included.
So whatever is added and proven from some point on can be rewound at once, which brings back the
store of that point.
-/

namespace EndorsedChain.Session

open VeriBlock

variable {known : Set Header} {a b : Session} {r : Reply} {c : Call} {calls : List Call}

theorem backed_start (params : NetworkParameters) :
    Backed known (start params).journal (start params).index.store :=
  .empty Store.Keyed.empty (Store.Same.refl _)

/-- What backs the store from before the journal is not touched. -/
theorem backed_call_append {older : List (List Change)}
    (hbacked : Backed known (a.journal ++ older) a.index.store)
    (hmem : ∀ h ∈ c.headers, h ∈ known) (hcall : a.call c = some r) :
    Backed known (r.session.journal ++ older) r.session.index.store := by
  cases hpersistent : c.isPersistent with
  | true =>
    obtain ⟨-, ⟨hjournal, hstore⟩ | ⟨changes, edits, hjournal, hmutations, hchanges⟩⟩ :=
      call_persistent (hbacked.headed) hmem hpersistent hcall
    · rwa [hjournal, hstore]
    · have hheaded := hmutations.headed (hbacked.headed)
      rw [hjournal]
      exact .mutations hbacked hmutations hchanges hheaded.keyed (Store.Same.refl _)
  | false =>
    cases c with
    | add | addAll | prove | setBitcoin => cases hpersistent
    | addTemporarily h proof =>
      cases hcall
      exact (a.index.store_addTemporarily h proof).symm ▸ hbacked
    | addAllTemporarily hs =>
      cases hcall
      exact (a.index.store_addAllTemporarily hs).symm ▸ hbacked
    | proveTemporarily h proof =>
      cases hcall
      exact (a.index.store_proveTemporarily h proof).symm ▸ hbacked
    | clearTemporary =>
      cases hcall
      exact hbacked
    | rewind count =>
      obtain ⟨u, hundo, hu⟩ := hbacked.undoEach_append count
      simp only [call, Index.rewind] at hcall
      cases hspeculating : a.index.isSpeculating with
      | true =>
        rw [hspeculating] at hcall
        cases hcall
        exact hbacked
      | false =>
        rw [hspeculating, hundo] at hcall
        cases hcall
        exact hu

theorem backed_call (hbacked : Backed known a.journal a.index.store)
    (hmem : ∀ h ∈ c.headers, h ∈ known) (hcall : a.call c = some r) :
    Backed known r.session.journal r.session.index.store := by
  rw [← List.append_nil a.journal] at hbacked
  rw [← List.append_nil r.session.journal]
  exact backed_call_append hbacked hmem hcall

theorem backed_run (hbacked : Backed known a.journal a.index.store)
    (hmem : ∀ h ∈ calls.flatMap Call.headers, h ∈ known) (hrun : a.run calls = some b) :
    Backed known b.journal b.index.store := by
  induction calls generalizing a with
  | nil => cases hrun; exact hbacked
  | cons c calls ih =>
    rw [run, Option.bind_eq_some_iff] at hrun
    obtain ⟨m, hcall, hrun⟩ := hrun
    rw [List.flatMap_cons] at hmem
    have hm := backed_call hbacked (fun h hh ↦ hmem h (List.mem_append_left _ hh)) hcall
    exact ih hm (fun h hh ↦ hmem h (List.mem_append_right _ hh)) hrun

/-- The lists that a run of persistent calls returns lead from the store before to the one after. -/
theorem run_persistent (hheaded : a.index.store.Headed known)
    (hmem : ∀ h ∈ calls.flatMap Call.headers, h ∈ known)
    (hpersistent : ∀ c ∈ calls, c.isPersistent = true) (hrun : a.run calls = some b) :
    b.index.mode = a.index.mode ∧ ∃ returned edits, b.journal = returned ++ a.journal ∧
      Mutations known a.index.store edits b.index.store ∧
      edits.mapM Edit.toChange? = some returned.reverse.flatten := by
  induction calls generalizing a with
  | nil => cases hrun; exact ⟨rfl, [], [], rfl, .nil _, rfl⟩
  | cons c calls ih =>
    rw [run, Option.bind_eq_some_iff] at hrun
    obtain ⟨m, hcall, hrun⟩ := hrun
    rw [List.flatMap_cons] at hmem
    rw [List.forall_mem_cons] at hpersistent
    obtain ⟨hmode, hstep⟩ := call_persistent hheaded
      (fun h hh ↦ hmem h (List.mem_append_left _ hh)) hpersistent.1 hcall
    have hrest (hm : m.session.index.store.Headed known) :=
      ih hm (fun h hh ↦ hmem h (List.mem_append_right _ hh)) hpersistent.2 hrun
    rcases hstep with ⟨hjournal, hstore⟩ | ⟨changes, edits, hjournal, hmutations, hchanges⟩
    · obtain ⟨hmode', returned, more, hjournal', hmore, hreturned⟩ := hrest (hstore ▸ hheaded)
      exact ⟨hmode'.trans hmode, returned, more, hjournal ▸ hjournal', hstore ▸ hmore, hreturned⟩
    · obtain ⟨hmode', returned, more, hjournal', hmore, hreturned⟩ :=
        hrest (hmutations.headed hheaded)
      refine ⟨hmode'.trans hmode, returned ++ [changes], edits ++ more, ?_,
        hmutations.append hmore, ?_⟩
      · rw [hjournal', hjournal, List.append_assoc, List.singleton_append]
      · rw [List.reverse_append, List.reverse_singleton, List.singleton_append, List.flatten_cons]
        exact mapM_toChange?_append hchanges hreturned

/-- Rewinding everything that was returned since some point gives back the store of that point. -/
theorem rewind_restores {params : NetworkParameters} {before after : List Call} {s t : Session}
    (hkeys : KeysDistinct {h | h ∈ (before ++ after).flatMap Call.headers})
    (hbefore : (start params).run before = some s) (hidle : s.index.isSpeculating = false)
    (hpersistent : ∀ c ∈ after, c.isPersistent = true) (hafter : s.run after = some t) :
    ∃ returned i, t.journal = returned ++ s.journal ∧
      t.index.rewind returned.reverse.flatten = (i, .ok ()) ∧
      (∀ hash, i.store.get hash = s.index.store.get hash) ∧
      i.store.size = s.index.store.size ∧
      i.store.headId = s.index.store.headId ∧ i.store.head = s.index.store.head := by
  rw [List.flatMap_append] at hkeys
  have hbacked : Backed {h | h ∈ before.flatMap Call.headers ++ after.flatMap Call.headers}
      s.journal s.index.store :=
    backed_run (backed_start params) (fun h hh ↦ List.mem_append_left _ hh) hbefore
  have hheaded := hbacked.headed
  obtain ⟨hmode, returned, edits, hjournal, hmutations, hchanges⟩ :=
    run_persistent hheaded (fun h hh ↦ List.mem_append_right _ hh) hpersistent hafter
  have hafterHeaded := hmutations.headed hheaded
  obtain ⟨u, hundo, hu, hsame⟩ := (hmutations.journals hheaded).undoEach hheaded.toSound hchanges
    hafterHeaded.keyed (Store.Same.refl _)
  have hholds := hheaded.toHolds.of_same hu hsame
  refine ⟨returned, { t.index with store := u }, hjournal, ?_,
    hsame.get hkeys hholds hheaded.toHolds, hsame.size, hsame.headId,
    hsame.head hkeys hholds hheaded.toHolds⟩
  have hspeculating : t.index.isSpeculating = false := by
    rwa [Index.isSpeculating, hmode]
  rw [Index.rewind, hspeculating, hundo]
  rfl

open Sample in
/-- The rival of the second header becomes the head, and its proof is replaced by an earlier one.
The other branch grows as well, and forks. -/
def rivalCalls : List Call :=
  [.setBitcoin (bitcoinUpTo 101), .add rival bitcoinTip.hash, .prove rival bitcoinFirst.hash,
    .addAll [third], .prove third bitcoinTip.hash, .add impostor .zero]

open Sample in
/-- Rewinding five lists of changes at once leaves the first two headers, without a proof and with
the second one as head. -/
theorem rewind_restores_second_header : ∃ s t returned i,
    (start .testnet).run [.add genesis .zero, .add second .zero] = some s ∧
      s.run rivalCalls = some t ∧
      t.index.store.head = some ⟨rival, 25700000000, bitcoinFirst.hash⟩ ∧
      t.index.store.size = 5 ∧ t.journal = returned ++ s.journal ∧
      returned.map List.length = [1, 1, 1, 2, 3] ∧
      t.index.rewind returned.reverse.flatten = (i, .ok ()) ∧
      (∀ hash, i.store.get hash = s.index.store.get hash) ∧ i.store.size = 2 ∧
      i.store.head = some ⟨second, 200000000, .zero⟩ := by
  have hmap : (((start .testnet).run [.add genesis .zero, .add second .zero]).bind fun s ↦
      (s.run rivalCalls).map fun t ↦ (s.index.isSpeculating,
        [s, t].map (·.index.store.head), [s, t].map (·.index.store.size),
        [s, t].map (·.journal.map List.length))) =
      some (false,
        [some ⟨second, 200000000, .zero⟩, some ⟨rival, 25700000000, bitcoinFirst.hash⟩], [2, 5],
        [[2, 2], [1, 1, 1, 2, 3, 2, 2]]) := by
    decide +kernel
  obtain ⟨s, hbefore, hs⟩ := Option.bind_eq_some_iff.mp hmap
  obtain ⟨t, hafter, ht⟩ := Option.map_eq_some_iff.mp hs
  simp only [List.map_cons, List.map_nil, Prod.mk.injEq, List.cons.injEq, and_true] at ht
  obtain ⟨hidle, ⟨hhead, hthead⟩, ⟨hsize, htsize⟩, hlengths, htlengths⟩ := ht
  obtain ⟨returned, i, hjournal, hrewind, hget, hisize, -, hihead⟩ :=
    rewind_restores (by decide +kernel) hbefore hidle (by decide) hafter
  rw [hjournal, List.map_append, hlengths] at htlengths
  have hlists : returned.map List.length ++ [2, 2] = [1, 1, 1, 2, 3] ++ [2, 2] := htlengths
  exact ⟨s, t, returned, i, hbefore, hafter, hthead, htsize, hjournal,
    List.append_cancel_right hlists, hrewind, hget, hisize.trans hsize, hihead.trans hhead⟩

end EndorsedChain.Session
