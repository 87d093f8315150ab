import EndorsedChain.Proofs.Index.Mutates
import EndorsedChain.Proofs.Session.Basic

/-!
# Rewinding

The journal of a session backs its store: each list of changes undoes the mutations since the
list before it, down to the empty store.  So the newest lists can always be rewound, one by one or
several at once, and what comes back is the store of before.
-/

namespace EndorsedChain

open VeriBlock

variable {known : Set Header} {s t u : Store Entry VBlake} {edits more : List Edit}
  {changes : List Change} {journal : List (List Change)}

/-- Several mutations, one after the other. -/
inductive Mutations (known : Set Header) :
    Store Entry VBlake → List Edit → Store Entry VBlake → Prop
  | nil (s : Store Entry VBlake) : Mutations known s [] s
  | cons {s t u : Store Entry VBlake} {edits more : List Edit} (h : Mutates known s edits t)
    (hmore : Mutations known t more u) : Mutations known s (edits ++ more) u

namespace Mutations

theorem single (h : Mutates known s edits t) : Mutations known s edits t := by
  have hcons := Mutations.cons h (.nil t)
  rwa [List.append_nil] at hcons

theorem append (h : Mutations known s edits t) (h' : Mutations known t more u) :
    Mutations known s (edits ++ more) u := by
  induction h with
  | nil => exact h'
  | cons hmutates _ ih =>
    rw [List.append_assoc]
    exact .cons hmutates (ih h')

theorem headed (h : Mutations known s edits t) (hs : s.Headed known) :
    t.Headed known := by
  induction h with
  | nil => exact hs
  | cons hmutates _ ih => exact ih (hmutates.headed hs)

theorem journals (h : Mutations known s edits t) (hs : s.Headed known) :
    Journals known s edits t := by
  induction h with
  | nil s => exact .nil s
  | cons hmutates _ ih =>
    exact (hmutates.journals hs.toSound).append (ih (hmutates.headed hs))

end Mutations

/-- The changes of two runs of edits. -/
theorem mapM_toChange?_append {cs ds : List Change} (hc : edits.mapM Edit.toChange? = some cs)
    (hd : more.mapM Edit.toChange? = some ds) :
    (edits ++ more).mapM Edit.toChange? = some (cs ++ ds) := by
  rw [List.mapM_append, hc, hd]
  rfl

theorem exists_of_mapM_toChange?_append {all : List Change}
    (h : (edits ++ more).mapM Edit.toChange? = some all) :
    ∃ cs ds, edits.mapM Edit.toChange? = some cs ∧ more.mapM Edit.toChange? = some ds ∧
      all = cs ++ ds := by
  rw [List.mapM_append] at h
  obtain ⟨cs, hcs, h⟩ := Option.bind_eq_some_iff.mp h
  obtain ⟨ds, hds, h⟩ := Option.bind_eq_some_iff.mp h
  exact ⟨cs, ds, hcs, hds, (Option.some.inj h).symm⟩

/-- What each mutation preserves is preserved by all of them, along with their changes. -/
theorem Mutations.preserves {P : List Change → Store Entry VBlake → Prop}
    (hmutates : ∀ {s t : Store Entry VBlake} {edits : List Edit} {changes more : List Change},
      s.Headed known → Mutates known s edits t → edits.mapM Edit.toChange? = some more →
        P changes s → P (changes ++ more) t)
    (h : Mutations known s edits t) (hs : s.Headed known) {added : List Change}
    (hadded : edits.mapM Edit.toChange? = some added) (hP : P changes s) :
    P (changes ++ added) t := by
  induction h generalizing changes added with
  | nil =>
    cases hadded
    exact (List.append_nil changes).symm ▸ hP
  | cons hfirst _ ih =>
    obtain ⟨cs, ds, hcs, hds, rfl⟩ := exists_of_mapM_toChange?_append hadded
    rw [← List.append_assoc]
    exact ih (hfirst.headed hs) hds (hmutates hs hfirst hcs hP)

/-- The lists of changes that lead from a store back to the empty one. -/
inductive Backed (known : Set Header) : List (List Change) → Store Entry VBlake → Prop
  | empty {s : Store Entry VBlake} (hs : s.Keyed) (hsame : Store.Same s .empty) :
    Backed known [] s
  | mutations {s t u : Store Entry VBlake} {edits : List Edit} {changes : List Change}
    {journal : List (List Change)} (hbacked : Backed known journal s)
    (hedits : Mutations known s edits t) (hchanges : edits.mapM Edit.toChange? = some changes)
    (hu : u.Keyed) (hsame : Store.Same u t) : Backed known (changes :: journal) u

namespace Backed

theorem headed (h : Backed known journal s) : s.Headed known := by
  induction h with
  | empty hs hsame => exact Store.Headed.empty.of_same hs hsame
  | mutations _ hedits _ hu hsame ih => exact (hedits.headed ih).of_same hu hsame

theorem of_same (h : Backed known journal s) (ht : t.Keyed) (hsame : Store.Same t s) :
    Backed known journal t := by
  cases h with
  | empty _ hempty => exact .empty ht (hsame.trans hempty)
  | mutations hbacked hedits hchanges _ hold =>
    exact .mutations hbacked hedits hchanges ht (hsame.trans hold)

/-- What mutations preserve holds of a store and the changes that back it, in the order in which
they were made. -/
theorem preserves {P : List Change → Store Entry VBlake → Prop}
    (hempty : ∀ {s : Store Entry VBlake}, s.blocks = [] → P [] s)
    (hmutates : ∀ {s t : Store Entry VBlake} {edits : List Edit} {changes more : List Change},
      s.Headed known → Mutates known s edits t → edits.mapM Edit.toChange? = some more →
        P changes s → P (changes ++ more) t)
    (hsame : ∀ {s t : Store Entry VBlake} {changes : List Change}, s.Holds known →
      t.Holds known → Store.Same t s → P changes s → P changes t)
    (h : Backed known journal s) : P journal.reverse.flatten s := by
  induction h with
  | empty _ hblocks => exact hempty (List.Perm.eq_nil hblocks.perm)
  | mutations hbacked hedits hchanges hu hold ih =>
    have hheaded := hedits.headed hbacked.headed
    rw [List.reverse_cons, List.flatten_append, List.flatten_singleton]
    exact hsame hheaded.toHolds (hheaded.toHolds.of_same hu hold) hold
      (hedits.preserves hmutates hbacked.headed hchanges ih)

/-- The newest lists are undone, and the others back what comes out. -/
theorem undoEach (h : Backed known journal s) (count : Nat) :
    ∃ u, undoEach s (journal.take count).reverse.flatten.reverse = (u, .ok ()) ∧
      Backed known (journal.drop count) u := by
  induction count generalizing journal s with
  | zero => exact ⟨s, rfl, h⟩
  | succ count ih =>
    cases h with
    | empty hs hsame => exact ⟨s, by rw [List.take_nil]; rfl, .empty hs hsame⟩
    | @mutations s₀ t _ edits changes journal hbacked hedits hchanges hs hsame =>
      have hheaded := hbacked.headed
      obtain ⟨v, hv, hvkeyed, hvsame⟩ :=
        (hedits.journals hheaded).undoEach hheaded.toSound hchanges hs hsame
      obtain ⟨u, hu, hubacked⟩ := ih (hbacked.of_same hvkeyed hvsame)
      refine ⟨u, ?_, hubacked⟩
      rw [List.take_succ_cons, List.reverse_cons, List.flatten_append, List.reverse_append,
        List.flatten_singleton, undoEach_append, hv]
      exact hu

/-- The same with lists at the end that are not to be undone. -/
theorem undoEach_append {older : List (List Change)} (h : Backed known (journal ++ older) s)
    (count : Nat) :
    ∃ u, EndorsedChain.undoEach s (journal.take count).reverse.flatten.reverse = (u, .ok ()) ∧
      Backed known (journal.drop count ++ older) u := by
  rcases Nat.le_total count journal.length with hcount | hcount
  · have hundo := h.undoEach count
    rwa [List.take_append_of_le_length hcount, List.drop_append_of_le_length hcount] at hundo
  · have hundo := h.undoEach journal.length
    rwa [List.take_left, List.drop_left, ← List.take_of_length_le hcount,
      ← List.nil_append older, ← List.drop_of_length_le hcount] at hundo

end Backed

/-! ## Calls -/

namespace Index

variable {i j : Index}

theorem journal_eq_ok {result : Except Error (List Edit)}
    (h : Index.journal result = .ok changes) :
    ∃ edits, result = .ok edits ∧ edits.mapM Edit.toChange? = some changes := by
  unfold Index.journal at h
  split at h
  · cases h
  · split at h
    · cases h
    · cases h
      exact ⟨_, rfl, ‹_›⟩

theorem journal_eq_rejected {result : Except Error (List Edit)} {e : Error}
    (h : Index.journal result = .error (.rejected e)) : result = .error e := by
  unfold Index.journal at h
  split at h
  · cases h; rfl
  · split at h <;> cases h

/-- The changes of a mutation are those of edits that lead to the store after it. -/
theorem Outcome.of_ok {result : Index × Except Error (List Edit)} (h : Outcome known i result)
    (hjournal : Index.journal result.2 = .ok changes) :
    ∃ t edits, result.1 = { i with store := t } ∧ Mutates known i.store edits t ∧
      edits.mapM Edit.toChange? = some changes := by
  obtain ⟨edits, hedits, hchanges⟩ := journal_eq_ok hjournal
  cases h with
  | refused e => cases hedits
  | carriedOut hmutates =>
    cases hedits
    exact ⟨_, _, rfl, hmutates, hchanges⟩

theorem Outcome.of_rejected {result : Index × Except Error (List Edit)}
    (h : Outcome known i result) {e : Error}
    (hjournal : Index.journal result.2 = .error (.rejected e)) : result.1 = i := by
  have hresult := journal_eq_rejected hjournal
  cases h with
  | refused => rfl
  | carriedOut => cases hresult

/-- The changes that are made by adding headers up to the first that fails, which are returned if
none does. -/
def made (i : Index) : List Header → List Change
  | [] => []
  | h :: hs =>
    match i.add h .zero with
    | (_, .error _) => []
    | (i, .ok changes) => changes ++ i.made hs

theorem made_of_ok {hs : List Header} (hadd : i.addEach hs = (j, .ok changes)) :
    i.made hs = changes := by
  induction hs generalizing i changes with
  | nil => cases hadd; rfl
  | cons h hs ih =>
    rw [addEach] at hadd
    rw [made]
    rcases hfirst : i.add h .zero with ⟨k, f | cs⟩
    · rw [hfirst] at hadd
      cases hadd
    · rw [hfirst] at hadd
      rcases hrest : k.addEach hs with ⟨l, f | ds⟩
      · simp only [hrest] at hadd
        cases hadd
      · simp only [hrest] at hadd
        cases hadd
        exact congrArg (cs ++ ·) (ih hrest)

/-- Also up to a failure the changes are those of edits that lead to the store after them. -/
theorem mutations_of_made {hs : List Header} {result : Except Fault (List Change)}
    (hheaded : i.store.Headed known) (hmem : ∀ h ∈ hs, h ∈ known)
    (hadd : i.addEach hs = (j, result)) (hresult : result ≠ .error .workTooWide) :
    ∃ t edits, j = { i with store := t } ∧ Mutations known i.store edits t ∧
      edits.mapM Edit.toChange? = some (i.made hs) := by
  induction hs generalizing i result with
  | nil => cases hadd; exact ⟨_, [], rfl, .nil _, rfl⟩
  | cons h hs ih =>
    have houtcome := outcome_addEdits hheaded (hmem h List.mem_cons_self) .zero
    have hpair : i.add h .zero = ((i.addEdits h .zero).1, Index.journal (i.addEdits h .zero).2) :=
      rfl
    rw [addEach, hpair] at hadd
    rw [made, hpair]
    cases hjournal : Index.journal (i.addEdits h .zero).2 with
    | error f =>
      rw [hjournal] at hadd
      cases hadd
      cases f with
      | workTooWide => exact absurd rfl hresult
      | rejected e => exact ⟨_, [], houtcome.of_rejected hjournal, .nil _, rfl⟩
    | ok cs =>
      rw [hjournal] at hadd
      obtain ⟨t, edits, hindex, hmutates, hcs⟩ := houtcome.of_ok hjournal
      rw [hindex] at hadd ⊢
      rcases hrest : ({ i with store := t } : Index).addEach hs with ⟨k, rest⟩
      simp only [hrest] at hadd
      obtain ⟨rfl, hmap⟩ := Prod.mk.inj hadd
      have hrestOk : rest ≠ .error .workTooWide := by
        rintro rfl
        exact hresult hmap.symm
      obtain ⟨u, more, hk, hmore, hds⟩ := ih (hmutates.headed hheaded)
        (fun x hx ↦ hmem x (List.mem_cons_of_mem h hx)) hrest hrestOk
      exact ⟨u, edits ++ more, hk, .cons hmutates hmore, mapM_toChange?_append hcs hds⟩

theorem mutations_of_addEach {hs : List Header}
    (hheaded : i.store.Headed known) (hmem : ∀ h ∈ hs, h ∈ known)
    (hadd : i.addEach hs = (j, .ok changes)) :
    ∃ t edits, j = { i with store := t } ∧ Mutations known i.store edits t ∧
      edits.mapM Edit.toChange? = some changes := by
  rw [← made_of_ok hadd]
  exact mutations_of_made hheaded hmem hadd (by simp)

theorem mutations_of_addAll {hs : List Header}
    (hheaded : i.store.Headed known) (hmem : ∀ h ∈ hs, h ∈ known)
    (hadd : i.addAll hs = (j, .ok changes)) :
    ∃ t edits, j = { i with store := t } ∧ Mutations known i.store edits t ∧
      edits.mapM Edit.toChange? = some changes := by
  unfold addAll at hadd
  split at hadd
  · cases hadd
  · exact mutations_of_addEach hheaded (fun h hh ↦ hmem h (List.mem_mergeSort.mp hh)) hadd

end Index

namespace Session

variable {a : Session} {r : Reply} {c : Call}

/-- A list of changes is added to the journal, which lead from the store before to the store after,
or both stay the same. -/
def Persists (known : Set Header) (a b : Session) : Prop :=
  b.journal = a.journal ∧ b.index.store = a.index.store ∨
    ∃ changes edits, b.journal = changes :: a.journal ∧
      Mutations known a.index.store edits b.index.store ∧
      edits.mapM Edit.toChange? = some changes

theorem keep_persists {result : Index × Except Index.Error (List Edit)}
    (houtcome : Index.Outcome known a.index result)
    (hkeep : a.keep (result.1, Index.journal result.2) = some r) :
    r.session.index.mode = a.index.mode ∧ Persists known a r.session := by
  cases hjournal : Index.journal result.2 with
  | ok changes =>
    obtain ⟨t, edits, hindex, hmutates, hchanges⟩ := houtcome.of_ok hjournal
    rw [hjournal, hindex] at hkeep
    cases hkeep
    exact ⟨rfl, .inr ⟨changes, edits, rfl, .single hmutates, hchanges⟩⟩
  | error f =>
    cases f with
    | rejected e =>
      rw [hjournal, houtcome.of_rejected hjournal] at hkeep
      cases hkeep
      exact ⟨rfl, .inl ⟨rfl, rfl⟩⟩
    | workTooWide => rw [hjournal] at hkeep; cases hkeep

/-- What a call does that is not temporary. -/
theorem call_persistent (hheaded : a.index.store.Headed known)
    (hmem : ∀ h ∈ c.headers, h ∈ known) (hpersistent : c.isPersistent = true)
    (hcall : a.call c = some r) :
    r.session.index.mode = a.index.mode ∧ Persists known a r.session := by
  cases c with
  | add h proof =>
    exact keep_persists (Index.outcome_addEdits hheaded (hmem h List.mem_cons_self) proof) hcall
  | prove h proof => exact keep_persists (Index.outcome_proveEdits hheaded h proof) hcall
  | addAll hs =>
    simp only [call] at hcall
    split at hcall
    · rename_i j changes hadd
      cases hcall
      obtain ⟨t, edits, rfl, hmutations, hchanges⟩ :=
        Index.mutations_of_addAll hheaded hmem hadd
      exact ⟨rfl, .inr ⟨changes, edits, rfl, hmutations, hchanges⟩⟩
    · cases hcall
  | setBitcoin bitcoin =>
    cases hcall
    exact ⟨rfl, .inl ⟨rfl, rfl⟩⟩
  | addTemporarily | addAllTemporarily | proveTemporarily | clearTemporary | rewind =>
    cases hpersistent

end Session

end EndorsedChain
