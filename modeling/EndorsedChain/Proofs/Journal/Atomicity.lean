import EndorsedChain.Proofs.Index.Reachable
import EndorsedChain.Proofs.Journal.Packable
import EndorsedChain.Proofs.Sample.Openings

/-!
# Rewinds that fail

A rewind stops at the first change that cannot be undone.  The changes that come after it in the
journal have been undone by then, and none that come before it.  Of the change itself nothing has
been undone, with one exception: an addition is undone by removing the entry before the value under
it is read.  If that value cannot be read, the entry is gone although the rewind fails.
-/

namespace EndorsedChain

open VeriBlock

variable {s t : Store Entry VBlake} {c : Change} {changes : List Change} {added : Entry}
  {e : Index.Error}

/-! ## One change -/

/-- Of the two values of an addition only the new one can be read. -/
structure Change.HalfRead (c : Change) (added : Entry) : Prop where
  chain : c.chain = .veriBlock
  operation : c.operation = .addBlock
  new : decodeEntry c.newValue = .ok added
  old_ne_nil : c.oldValue ≠ []
  old : ∃ e, decodeEntry c.oldValue = .error e

/-- What is journaled is an addition over nothing, or can be read on both sides. -/
theorem Edit.not_halfRead {edit : Edit} (h : edit.toChange? = some c) : ¬c.HalfRead added := by
  intro hhalf
  obtain ⟨-, hold⟩ := old_of_toChange? h
  cases hbefore : edit.before? with
  | none =>
    rw [hbefore] at hold
    exact hhalf.old_ne_nil hold
  | some prior =>
    rw [hbefore] at hold
    obtain ⟨e, herror⟩ := hhalf.old
    exact absurd (hold.symm.trans herror) nofun

theorem undo_of_halfRead (h : c.HalfRead added) (s : Store Entry VBlake) :
    (undo s c).1 = (s.remove added.hash).2 := by
  obtain ⟨chain, operation, old, new⟩ := c
  obtain ⟨rfl, rfl, hnew, hne, e, hold⟩ := h
  have hempty : old.isEmpty = false := by simpa using hne
  simp only [undo, hnew, hempty, hold]
  rfl

/-- A change that cannot be undone leaves the store as it is, unless only one half of it is read. -/
theorem undo_of_error (herror : (undo s c).2 = .error e) :
    (undo s c).1 = s ∨ ∃ added, c.HalfRead added := by
  obtain ⟨chain, operation, old, new⟩ := c
  cases chain with
  | bitcoin => exact .inl rfl
  | veriBlock =>
    cases operation with
    | addBlock =>
      simp only [undo] at herror ⊢
      cases hnew : decodeEntry new with
      | error => exact .inl rfl
      | ok added =>
        simp only [hnew] at herror ⊢
        split at herror
        · cases herror
        · rename_i hne
          cases hold : decodeEntry old with
          | error e' =>
            exact .inr ⟨added, rfl, rfl, hnew, by simpa using hne, e', hold⟩
          | ok prior =>
            rw [hold] at herror
            cases herror
    | setHead =>
      simp only [undo] at herror ⊢
      cases hold : decodeEntry old with
      | error => exact .inl rfl
      | ok prior =>
        simp only [hold] at herror ⊢
        split at herror
        · cases herror
        · rename_i hne
          rw [if_neg hne]
          cases hset : s.setHead prior with
          | error => exact .inl rfl
          | ok moved =>
            rw [hset] at herror
            cases herror
    | setProof =>
      simp only [undo] at herror ⊢
      cases hold : decodeEntry old with
      | error => exact .inl rfl
      | ok prior =>
        rw [hold] at herror
        cases herror

/-! ## Several changes -/

/-- The first change that cannot be undone ends the run. -/
theorem undoEach_of_error (herror : undoEach s changes = (t, .error e)) :
    ∃ done c rest u, changes = done ++ c :: rest ∧ undoEach s done = (u, .ok ()) ∧
      undo u c = (t, .error e) := by
  induction changes generalizing s with
  | nil => cases herror
  | cons c changes ih =>
    rw [undoEach] at herror
    rcases hundo : undo s c with ⟨u, e' | _⟩
    · simp only [hundo] at herror
      exact ⟨[], c, changes, s, rfl, rfl, hundo.trans herror⟩
    · simp only [hundo] at herror
      obtain ⟨done, d, rest, v, rfl, hdone, hd⟩ := ih herror
      refine ⟨c :: done, d, rest, v, rfl, ?_, hd⟩
      rw [undoEach]
      simp only [hundo, hdone]

namespace Index

variable {i : Index}

theorem rewind_of_idle (hidle : i.isSpeculating = false) (changes : List Change) :
    i.rewind changes =
      ({ i with store := (undoEach i.store changes.reverse).1 },
        (undoEach i.store changes.reverse).2) := by
  rw [rewind, hidle, if_neg Bool.false_ne_true]

/-- A rewind that fails has undone the changes after the one that fails, and no other. -/
theorem rewind_of_error (hidle : i.isSpeculating = false)
    (herror : (i.rewind changes).2 = .error e) :
    ∃ before c after j, changes = before ++ c :: after ∧ i.rewind after = (j, .ok ()) ∧
      ((i.rewind changes).1 = j ∨ ∃ added, c.HalfRead added) := by
  rw [rewind_of_idle hidle] at herror ⊢
  obtain ⟨done, c, rest, u, hchanges, hdone, hundo⟩ :=
    undoEach_of_error (t := (undoEach i.store changes.reverse).1) (Prod.ext rfl herror)
  refine ⟨rest.reverse, c, done.reverse, { i with store := u }, ?_, ?_, ?_⟩
  · rw [← List.reverse_reverse changes, hchanges]
    simp
  · rw [rewind_of_idle hidle, List.reverse_reverse, hdone]
  · rw [← congrArg Prod.fst hundo]
    rcases undo_of_error (congrArg Prod.snd hundo) with hsame | hhalf
    · exact .inl (by rw [hsame])
    · exact .inr hhalf

theorem rewind_singleton (hidle : i.isSpeculating = false) (c : Change) :
    i.rewind [c] = ({ i with store := (undo i.store c).1 }, (undo i.store c).2) := by
  rw [rewind_of_idle hidle, List.reverse_singleton, undoEach]
  rcases undo i.store c with ⟨t, _ | _⟩ <;> rfl

/-- A single change that cannot be undone leaves everything as it is, unless it is the addition of a
stored entry over a value that cannot be read: then the entry is gone.  A store that was only ever
written by its own operations is keyed. -/
theorem rewind_one_atomic_iff (hidle : i.isSpeculating = false) (hkeyed : i.store.Keyed)
    (herror : (i.rewind [c]).2 = .error e) :
    ((i.rewind [c]).1 = i ↔ ∀ added, c.HalfRead added → i.store.get added.hash = none) ∧
      ∀ added, c.HalfRead added →
        (i.rewind [c]).1 = { i with store := (i.store.remove added.hash).2 } := by
  rw [rewind_singleton hidle] at herror ⊢
  have hgone : ∀ added, c.HalfRead added →
      ({ i with store := (undo i.store c).1 } : Index) =
        { i with store := (i.store.remove added.hash).2 } :=
    fun added hhalf ↦ by rw [undo_of_halfRead hhalf]
  refine ⟨⟨?_, ?_⟩, hgone⟩
  · intro hsame added hhalf
    rw [← Store.remove_eq_self_iff hkeyed]
    exact congrArg Index.store ((hgone added hhalf).symm.trans hsame)
  · intro habsent
    rcases undo_of_error herror with hsame | ⟨added, hhalf⟩
    · rw [hsame]
    · rw [hgone added hhalf, (Store.remove_eq_self_iff hkeyed).mpr (habsent added hhalf)]

open Sample

/-- The first header of the sample chain is stored and the head. -/
def begun : Index := (({ params := .testnet } : Index).add genesis .zero).1

theorem keyed_begun : begun.store.Keyed := keyed_add Store.Keyed.empty genesis .zero

/-- An update of a proof whose prior value is missing is refused before anything is written. -/
theorem proof_of_nothing_is_refused :
    ∃ e, (begun.rewind [⟨.veriBlock, .setProof, [], []⟩]).2 = .error e ∧
      (begun.rewind [⟨.veriBlock, .setProof, [], []⟩]).1 = begun := by
  obtain ⟨e, herror⟩ : ∃ e, (begun.rewind [⟨.veriBlock, .setProof, [], []⟩]).2 = .error e :=
    ⟨.codec (.notEnoughBytes 0 4), by decide +kernel⟩
  refine ⟨e, herror, (rewind_one_atomic_iff (by decide +kernel) keyed_begun herror).1.mpr ?_⟩
  intro added hhalf
  cases hhalf.operation

/-- The addition of the first header, over a value of a single byte. -/
def halfReadAddition : Change where
  chain := .veriBlock
  operation := .addBlock
  oldValue := [0]
  newValue := (Entry.pack? ⟨genesis, 100000000, .zero⟩).getD []

/-- The rewind fails, but the header that was stored and the head is lost. -/
theorem failed_rewind_loses_head : begun.isSpeculating = false ∧ begun.store.Keyed ∧
    (∃ e, (begun.rewind [halfReadAddition]).2 = .error e) ∧
    begun.store.get genesis.hash = some ⟨genesis, 100000000, .zero⟩ ∧
    begun.store.head = some ⟨genesis, 100000000, .zero⟩ ∧
    (begun.rewind [halfReadAddition]).1.store.get genesis.hash = none ∧
    (begun.rewind [halfReadAddition]).1.store.head = none :=
  ⟨by decide +kernel, keyed_begun, ⟨.codec (.notEnoughBytes 1 4), by decide +kernel⟩,
    by decide +kernel, by decide +kernel, by decide +kernel, by decide +kernel⟩

end Index

end EndorsedChain
