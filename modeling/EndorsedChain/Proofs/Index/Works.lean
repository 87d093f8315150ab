import EndorsedChain.Proofs.Index.Reachable
import EndorsedChain.Proofs.Journal.Packable
import EndorsedChain.Proofs.Session.Backed

/-!
# Works of stored headers

If the works of all stored entries have a property, and so has the work of each header that is
admitted, then a mutation stores and journals only works with this property, and rewinding its
changes puts back only such works.  This is used for a bound on the works, and for works that can be
packed: then a mutation dies exactly if it admits a header whose work cannot be packed.
-/

namespace EndorsedChain

open VeriBlock

variable {P Q : Nat → Prop} {s t : Store Entry VBlake} {edit : Edit} {edits : List Edit}
  {changes : List Change} {c : Change} {e : Entry} {ref : VBlake}

/-! ## Stores and changes -/

/-- A keyed store whose entries have works with a property. -/
structure Store.Works (P : Nat → Prop) (s : Store Entry VBlake) : Prop where
  keyed : s.Keyed
  work : ∀ e ∈ s.blocks, P e.work

namespace Store.Works

theorem empty : (Store.empty : Store Entry VBlake).Works P :=
  ⟨Keyed.empty, fun _ he ↦ absurd he List.not_mem_nil⟩

theorem mono (hPQ : ∀ n, P n → Q n) (h : s.Works P) : s.Works Q :=
  ⟨h.keyed, fun e he ↦ hPQ _ (h.work e he)⟩

theorem put (h : s.Works P) (he : P e.work) : (s.put e).Works P where
  keyed := h.keyed.put e
  work x hx := by
    rcases (mem_blocks_put h.keyed).mp hx with rfl | ⟨hx, -⟩
    · exact he
    · exact h.work x hx

theorem remove (h : s.Works P) (id : VBlake) : (s.remove id).2.Works P :=
  ⟨h.keyed.remove id, fun x hx ↦ h.work x ((mem_blocks_remove h.keyed).mp hx).1⟩

theorem setHeadId (h : s.Works P) (headId : Option VBlake) :
    ({ s with headId } : Store Entry VBlake).Works P :=
  ⟨h.keyed.congr rfl, h.work⟩

theorem get (h : s.Works P) (hget : s.get ref = some e) : P e.work :=
  h.work e (get_mem h.keyed hget)

theorem head (h : s.Works P) (hhead : s.head = some e) : P e.work := by
  obtain ⟨id, -, hget⟩ := Option.bind_eq_some_iff.mp hhead
  exact h.get hget

end Store.Works

def Edit.Works (P : Nat → Prop) (edit : Edit) : Prop := ∀ e ∈ edit.entries, P e.work

/-- What undoing a change puts back has a work with a property.  Moving the head puts nothing
back. -/
def Change.Restores (P : Nat → Prop) (c : Change) : Prop :=
  c.operation ≠ .setHead → ∀ e, decodeEntry c.oldValue = .ok e → P e.work

theorem Change.Restores.mono (hPQ : ∀ n, P n → Q n) (h : c.Restores P) : c.Restores Q :=
  fun hne e he ↦ hPQ _ (h hne e he)

theorem Edit.Works.restores (h : edit.Works P) (hc : edit.toChange? = some c) : c.Restores P := by
  obtain ⟨hoperation, -, hold⟩ := decode_of_toChange? hc
  intro hne e he
  exact h e (hold (hoperation ▸ hne) e he)

theorem works_undo (hs : s.Works P) (hc : c.Restores P) : (undo s c).1.Works P := by
  unfold undo
  split
  · exact hs
  · rename_i hoperation
    split
    · exact hs
    · dsimp only
      split
      · exact hs.remove _
      · split
        · exact hs.remove _
        · rename_i old hold
          refine (hs.remove _).put (hc ?_ old hold)
          rw [hoperation]
          exact Operation.noConfusion
  · split
    · exact hs
    · split
      · exact hs.setHeadId none
      · split
        · exact hs
        · rename_i hset
          refine ⟨hs.keyed.setHead hset, ?_⟩
          unfold Store.setHead at hset
          dsimp only at hset
          split at hset
          · cases hset
            exact hs.work
          · cases hset
  · rename_i hoperation
    split
    · exact hs
    · rename_i prior hprior
      refine (hs.remove _).put (hc ?_ prior hprior)
      rw [hoperation]
      exact Operation.noConfusion

theorem works_undoEach (hs : s.Works P) {cs : List Change} (hcs : ∀ c ∈ cs, c.Restores P) :
    (undoEach s cs).1.Works P := by
  induction cs generalizing s with
  | nil => exact hs
  | cons c cs ih =>
    have hc := works_undo hs (hcs c List.mem_cons_self)
    unfold undoEach
    split
    · rename_i hundo
      rwa [hundo] at hc
    · rename_i hundo
      rw [hundo] at hc
      exact ih hc fun d hd ↦ hcs d (List.mem_cons_of_mem c hd)

/-- Attaching proofs changes no work. -/
theorem Proves.works (h : Proves s edits t) (hs : s.Works P) :
    t.Works P ∧ ∀ edit ∈ edits, edit.Works P := by
  induction h with
  | nil => exact ⟨hs, List.forall_mem_nil _⟩
  | @cons s t prior proof edits hprior _ ih =>
    have hwork : P prior.work := hs.work prior hprior
    obtain ⟨ht, hedits⟩ := ih ((hs.remove prior.hash).put (e := { prior with proof }) hwork)
    refine ⟨ht, List.forall_mem_cons.mpr ⟨?_, hedits⟩⟩
    exact List.forall_mem_cons.mpr ⟨hwork, List.forall_mem_singleton.mpr hwork⟩

/-! ## Mutations -/

/-- The work that a header adds to its chain, nothing if it is not valid. -/
def VeriBlock.Header.statedWork (h : Header) : Nat := h.work.toOption.getD 0

theorem VeriBlock.Header.statedWork_eq {h : Header} {work : Nat} (hwork : h.work = .ok work) :
    h.statedWork = work := by
  rw [statedWork, hwork]
  rfl

namespace Index

variable {i j : Index} {h : Header} {proof : Digest} {a : Admission}
  {hs : List Header} {bound : Nat}

/-- A header is admitted, but its work does not have a property. -/
def Exceeds (P : Nat → Prop) (i : Index) (h : Header) (proof : Digest) : Prop :=
  i.isSpeculating = false ∧
    ∃ a, i.accept i.store.head h proof = .ok (some a) ∧ ¬P a.entry.work

/-- Some header of a list exceeds a property after all headers before it were added. -/
inductive ExceedsEach (P : Nat → Prop) : Index → List Header → Prop
  | head {i : Index} {h : Header} {hs : List Header} (hexceeds : i.Exceeds P h .zero) :
    ExceedsEach P i (h :: hs)
  | tail {i j : Index} {h : Header} {hs : List Header} {changes : List Change}
    (hadd : i.add h .zero = (j, .ok changes)) (hexceeds : ExceedsEach P j hs) :
    ExceedsEach P i (h :: hs)

/-- Some header exceeds a property when headers are added in the order of their heights. -/
def ExceedsAll (P : Nat → Prop) (i : Index) (hs : List Header) : Prop :=
  i.isSpeculating = false ∧ i.ExceedsEach P (hs.mergeSort fun a b => decide (a.height ≤ b.height))

theorem Exceeds.mono (hPQ : ∀ n, P n → Q n) (hexceeds : i.Exceeds Q h proof) :
    i.Exceeds P h proof := by
  obtain ⟨hidle, a, ha, hnot⟩ := hexceeds
  exact ⟨hidle, a, ha, fun hP ↦ hnot (hPQ _ hP)⟩

theorem not_exceeds_of_accept (haccept : i.accept i.store.head h proof = .ok (some a))
    (ha : P a.entry.work) : ¬i.Exceeds P h proof := by
  rintro ⟨-, b, hb, hnot⟩
  rw [haccept] at hb
  cases hb
  exact hnot ha

theorem ExceedsEach.mono (hPQ : ∀ n, P n → Q n) (hexceeds : i.ExceedsEach Q hs) :
    i.ExceedsEach P hs := by
  induction hexceeds with
  | head hexceeds => exact .head (hexceeds.mono hPQ)
  | tail hadd _ ih => exact .tail hadd ih

theorem ExceedsAll.mono (hPQ : ∀ n, P n → Q n) (hexceeds : i.ExceedsAll Q hs) :
    i.ExceedsAll P hs :=
  ⟨hexceeds.1, hexceeds.2.mono hPQ⟩

/-- The store after a mutation and its edits have only works with a property. -/
structure Carries (P : Nat → Prop) (r : Index × Except Error (List Edit)) : Prop where
  store : r.1.store.Works P
  edits : ∀ edits, r.2 = .ok edits → ∀ edit ∈ edits, edit.Works P

/-- The store after a mutation has only works with a property, also if changes that it returned are
undone. -/
structure Leaves (P : Nat → Prop) (r : Index × Except Fault (List Change)) : Prop where
  store : r.1.store.Works P
  changes : ∀ changes, r.2 = .ok changes → ∀ c ∈ changes, c.Restores P

theorem Carries.leaves {r : Index × Except Error (List Edit)} (h : Carries P r) :
    Leaves P (r.1, journal r.2) where
  store := h.store
  changes changes hchanges c hc := by
    obtain ⟨edits, hedits, hmapM⟩ := journal_eq_ok hchanges
    obtain ⟨edit, hedit, hpacked⟩ := Edit.mem_of_mapM_toChange? hmapM hc
    exact (h.edits edits hedits edit hedit).restores hpacked

/-- A mutation none of whose entries is too wide does not die. -/
theorem Carries.journal_ne {r : Index × Except Error (List Edit)} (h : Carries Packable r) :
    journal r.2 ≠ .error .workTooWide := by
  intro hdies
  obtain ⟨edits, hedits, hnot⟩ := journal_eq_workTooWide_iff.mp hdies
  exact hnot fun edit hedit ↦ h.edits edits hedits edit hedit

theorem carries_refused (hi : i.store.Works P) (e : Error) : Carries P (i, .error e) where
  store := hi
  edits _ h := by cases h

theorem carries_commit (hi : i.store.Works P) (ha : P a.entry.work) :
    Carries P (i.commit a) := by
  obtain ⟨hattached, hproven⟩ := (proves_attachAdmitted hi.keyed a).works (hi.put ha)
  have hadd : (Edit.addBlock a.entry).Works P := List.forall_mem_singleton.mpr ha
  have hmove : (Edit.setHead (i.attachAdmitted a).1.head a.entry).Works P := by
    intro e he
    rcases List.mem_append.mp he with he | he
    · exact hattached.head (Option.mem_toList.mp he)
    · exact List.mem_singleton.mp he ▸ ha
  rw [commit_eq]
  split
  · refine ⟨hattached.setHeadId _, fun edits hedits ↦ ?_⟩
    cases hedits
    exact List.forall_mem_append.mpr
      ⟨List.forall_mem_cons.mpr ⟨hadd, hproven⟩, List.forall_mem_singleton.mpr hmove⟩
  · refine ⟨hattached, fun edits hedits ↦ ?_⟩
    cases hedits
    exact List.forall_mem_cons.mpr ⟨hadd, hproven⟩

theorem carries_addEdits (hi : i.store.Works P) (hnot : ¬i.Exceeds P h proof) :
    Carries P (i.addEdits h proof) := by
  rcases i.addEdits_cases h proof with ⟨e, hadd⟩ | hadd | ⟨a, hidle, haccept, hadd⟩
  · rw [hadd]
    exact carries_refused hi e
  · rw [hadd]
    refine ⟨hi, fun edits hedits ↦ ?_⟩
    cases hedits
    exact List.forall_mem_nil _
  · rw [hadd]
    refine carries_commit hi (Classical.byContradiction fun ha ↦ hnot ?_)
    exact ⟨hidle, a, haccept, ha⟩

theorem carries_proveEdits (hi : i.store.Works P) (h : Header) (proof : Digest) :
    Carries P (i.proveEdits h proof) := by
  unfold proveEdits
  split
  · exact carries_refused hi _
  · obtain ⟨ht, hedits⟩ := (proves_attachAll i.bitcoin proof hi.keyed h.proofTargets).works hi
    refine ⟨ht, fun edits heq ↦ ?_⟩
    cases heq
    exact hedits

theorem leaves_add (hi : i.store.Works P) (hnot : ¬i.Exceeds P h proof) :
    Leaves P (i.add h proof) := (carries_addEdits hi hnot).leaves

theorem leaves_prove (hi : i.store.Works P) (h : Header) (proof : Digest) :
    Leaves P (i.prove h proof) := (carries_proveEdits hi h proof).leaves

/-- By induction on the headers: each one is added to a store whose works have the property. -/
theorem leaves_addEach (hi : i.store.Works P) (hnot : ¬i.ExceedsEach P hs) :
    Leaves P (i.addEach hs) := by
  induction hs generalizing i with
  | nil =>
    refine ⟨hi, fun changes hchanges ↦ ?_⟩
    cases hchanges
    exact List.forall_mem_nil _
  | cons h hs ih =>
    have hadded : Leaves P (i.add h .zero) := leaves_add hi fun hexceeds ↦ hnot (.head hexceeds)
    unfold addEach
    split
    · rename_i j f hadd
      rw [hadd] at hadded
      exact ⟨hadded.store, fun _ herror ↦ by cases herror⟩
    · rename_i j changes hadd
      rw [hadd] at hadded
      obtain ⟨hstore, hchanges⟩ := ih hadded.store fun hexceeds ↦ hnot (.tail hadd hexceeds)
      refine ⟨hstore, fun all hall ↦ ?_⟩
      cases hmore : (j.addEach hs).2 with
      | error f =>
        dsimp only at hall
        rw [hmore] at hall
        cases hall
      | ok more =>
        dsimp only at hall
        rw [hmore] at hall
        cases hall
        exact List.forall_mem_append.mpr ⟨hadded.changes changes rfl, hchanges more hmore⟩

theorem leaves_addAll (hi : i.store.Works P) (hnot : ¬i.ExceedsAll P hs) :
    Leaves P (i.addAll hs) := by
  unfold addAll
  cases hidle : i.isSpeculating with
  | true => exact ⟨hi, fun _ hchanges ↦ by cases hchanges⟩
  | false => exact leaves_addEach hi fun hexceeds ↦ hnot ⟨hidle, hexceeds⟩

theorem works_rewind (hi : i.store.Works P) (hchanges : ∀ c ∈ changes, c.Restores P) :
    (i.rewind changes).1.store.Works P := by
  unfold rewind
  split
  · exact hi
  · exact works_undoEach hi fun c hc ↦ hchanges c (List.mem_reverse.mp hc)

/-! ## A bound on the works -/

/-- An admitted header has at most its own work and that of a stored one. -/
theorem not_exceeds_of_le (hi : i.store.Works (· ≤ bound)) :
    ¬i.Exceeds (· ≤ bound + h.statedWork) h proof := by
  rintro ⟨hidle, a, haccept, hnot⟩
  obtain ⟨work, hwork, ⟨-, rfl⟩ | ⟨-, -, p, hprevious, rfl⟩⟩ := accept_eq_ok_some haccept
  · rw [Header.statedWork_eq hwork] at hnot
    exact hnot (Nat.le_add_left work bound)
  · rw [lookup_of_idle hidle] at hprevious
    rw [Header.statedWork_eq hwork] at hnot
    exact hnot (Nat.add_le_add_right (hi.get hprevious) work)

theorem not_exceedsEach_of_le (hi : i.store.Works (· ≤ bound)) :
    ¬i.ExceedsEach (· ≤ bound + (hs.map Header.statedWork).sum) hs := by
  induction hs generalizing i bound with
  | nil => rintro ⟨⟩
  | cons h hs ih =>
    rw [List.map_cons, List.sum_cons, ← Nat.add_assoc]
    intro hexceeds
    cases hexceeds with
    | head hexceeds =>
      refine not_exceeds_of_le hi (hexceeds.mono fun n hn ↦ ?_)
      exact Nat.le_trans hn (Nat.le_add_right _ _)
    | tail hadd hexceeds =>
      have hnot : ¬i.Exceeds (· ≤ bound + h.statedWork) h .zero := not_exceeds_of_le hi
      have hwider : i.store.Works (· ≤ bound + h.statedWork) :=
        hi.mono fun n hn ↦ Nat.le_add_right_of_le hn
      have hadded := (leaves_add hwider hnot).store
      rw [hadd] at hadded
      exact ih hadded hexceeds

theorem not_exceedsAll_of_le (hi : i.store.Works (· ≤ bound)) :
    ¬i.ExceedsAll (· ≤ bound + (hs.map Header.statedWork).sum) hs := by
  rintro ⟨-, hexceeds⟩
  have hsum := ((List.mergeSort_perm hs fun a b => decide (a.height ≤ b.height)).map
    Header.statedWork).sum_nat
  rw [← hsum] at hexceeds
  exact not_exceedsEach_of_le hi hexceeds

/-! ## When a mutation dies -/

theorem add_eq_workTooWide_iff (hi : i.store.Works Packable) :
    (i.add h proof).2 = .error .workTooWide ↔ i.Exceeds Packable h proof := by
  constructor
  · intro hdies
    refine Classical.byContradiction fun hnot ↦ ?_
    exact (carries_addEdits hi hnot).journal_ne hdies
  · rintro ⟨hidle, a, haccept, hwide⟩
    have hcommit := addEdits_of_accept hidle haccept
    obtain ⟨edits, hedits, hmem⟩ :
        ∃ edits, (i.addEdits h proof).2 = .ok edits ∧ .addBlock a.entry ∈ edits := by
      rw [hcommit, commit_eq]
      split
      · exact ⟨_, rfl, List.mem_append_left _ List.mem_cons_self⟩
      · exact ⟨_, rfl, List.mem_cons_self⟩
    exact journal_eq_workTooWide_iff.mpr ⟨edits, hedits, fun hall ↦
      hwide (hall _ hmem a.entry (List.mem_singleton_self _))⟩

theorem addEach_eq_workTooWide_iff (hi : i.store.Works Packable) :
    (i.addEach hs).2 = .error .workTooWide ↔ i.ExceedsEach Packable hs := by
  induction hs generalizing i with
  | nil => exact iff_of_false (by rintro ⟨⟩) (by rintro ⟨⟩)
  | cons h hs ih =>
    have hfirst : (i.add h .zero).2 = .error .workTooWide ↔ i.Exceeds Packable h .zero :=
      add_eq_workTooWide_iff hi
    unfold addEach
    split
    · rename_i j f hadd
      rw [hadd] at hfirst
      dsimp only at hfirst ⊢
      rw [hfirst]
      refine ⟨.head, fun hexceeds ↦ ?_⟩
      cases hexceeds with
      | head hexceeds => exact hexceeds
      | tail hadd' => rw [hadd] at hadd'; cases hadd'
    · rename_i j changes hadd
      rw [hadd] at hfirst
      have hnot : ¬i.Exceeds Packable h .zero := fun hexceeds ↦ by cases hfirst.mpr hexceeds
      have hadded := (leaves_add hi hnot).store
      rw [hadd] at hadded
      have hdies : ((j.addEach hs).2.map (changes ++ ·) = .error .workTooWide) ↔
          (j.addEach hs).2 = .error .workTooWide := by
        cases (j.addEach hs).2 <;> simp [Except.map]
      dsimp only
      rw [hdies, ih hadded]
      refine ⟨.tail hadd, fun hexceeds ↦ ?_⟩
      cases hexceeds with
      | head hexceeds => exact absurd hexceeds hnot
      | tail hadd' hexceeds =>
        rw [hadd] at hadd'
        cases hadd'
        exact hexceeds

theorem addAll_eq_workTooWide_iff (hi : i.store.Works Packable) :
    (i.addAll hs).2 = .error .workTooWide ↔ i.ExceedsAll Packable hs := by
  unfold addAll ExceedsAll
  cases i.isSpeculating with
  | true => simp
  | false => simpa using addEach_eq_workTooWide_iff hi

theorem prove_ne_workTooWide (hi : i.store.Works Packable) (h : Header) (proof : Digest) :
    (i.prove h proof).2 ≠ .error .workTooWide := (carries_proveEdits hi h proof).journal_ne

end Index

end EndorsedChain
