import EndorsedChain.Journal.Auditor
import EndorsedChain.Proofs.Store.Buckets
import Mathlib.Data.List.DropRight

/-!
# The ledger of an auditor

Everything that is ever recorded, for whatever block, makes up one ledger, and the number of a
change is its position in it.  Taking the changes of a block and clearing the auditor hide a part of
the ledger and leave the positions of the rest as they are.  So what an auditor holds for a block is
read off the calls that were made on it (`changes_run`), and the changes of all blocks can be put
back into the order in which they were recorded.
-/

namespace EndorsedChain.Auditor

variable {block other : BlockIdentifier} {first : ℕ}

/-- A call that changes an auditor. -/
inductive Call where
  | record (block : BlockIdentifier) (changes : List Change)
  | take (block : BlockIdentifier)
  | clear
deriving DecidableEq, Repr

namespace Call

/-- What a call adds to the ledger. -/
def recorded : Call → List (BlockIdentifier × Change)
  | record block changes => changes.map (block, ·)
  | take _ | clear => []

/-- The changes that a call records for a block. -/
def recordedFor (block : BlockIdentifier) : Call → List Change
  | record b changes => if b = block then changes else []
  | take _ | clear => []

/-- Whether the changes of a block are forgotten by a call. -/
def forgets (block : BlockIdentifier) : Call → Bool
  | record .. => false
  | take b => decide (b = block)
  | clear => true

end Call

def step (a : Auditor) : Call → Auditor
  | .record block changes => a.record block changes
  | .take block => (a.take block).2
  | .clear => a.clear

/-- The auditor after calls that were made on an empty one. -/
def run (calls : List Call) : Auditor := calls.foldl step empty

/-- All that was recorded, in the order of the calls. -/
def ledger (calls : List Call) : List (BlockIdentifier × Change) := calls.flatMap Call.recorded

/-- The calls up to the last one that forgets the changes of a block. -/
def settled (block : BlockIdentifier) (calls : List Call) : List Call :=
  calls.rdropWhile (!·.forgets block)

/-- The calls since then. -/
def pending (block : BlockIdentifier) (calls : List Call) : List Call :=
  calls.rtakeWhile (!·.forgets block)

/-- The entry of a block at a position of the ledger, if what is recorded there is of that block. -/
def entryAt (block : BlockIdentifier) (r : (BlockIdentifier × Change) × ℕ) : Option AuditedChange :=
  if r.1.1 = block then some ⟨r.2, r.1.2⟩ else none

/-- The entries of a block in a part of the ledger that starts at the position `first`. -/
def entriesOf (block : BlockIdentifier) (first : ℕ) (part : List (BlockIdentifier × Change)) :
    List AuditedChange :=
  (part.zipIdx first).filterMap (entryAt block)

/-! ## Parts of the ledger -/

section Parts

variable {part part' : List (BlockIdentifier × Change)} {changes : List Change} {e : AuditedChange}

theorem entryAt_eq_some {r : (BlockIdentifier × Change) × ℕ} :
    entryAt block r = some e ↔ r = ((block, e.change), e.sequence) := by
  obtain ⟨⟨b, c⟩, n⟩ := r
  obtain ⟨m, d⟩ := e
  simp only [entryAt, Option.ite_none_right_eq_some, Option.some.injEq, AuditedChange.mk.injEq,
    Prod.mk.injEq]
  tauto

theorem entriesOf_append : entriesOf block first (part ++ part') =
    entriesOf block first part ++ entriesOf block (first + part.length) part' := by
  rw [entriesOf, List.zipIdx_append, List.filterMap_append]
  rfl

theorem entriesOf_self : entriesOf block first (changes.map (block, ·)) = number first changes := by
  induction changes generalizing first with
  | nil => rfl
  | cons c changes ih =>
    rw [number, ← ih]
    exact List.filterMap_cons_some (if_pos rfl)

theorem entriesOf_of_ne (hne : other ≠ block) :
    entriesOf block first (changes.map (other, ·)) = [] := by
  rw [entriesOf, List.filterMap_eq_nil_iff]
  rintro ⟨r, n⟩ hr
  obtain ⟨c, -, rfl⟩ := List.mem_map.mp (List.fst_mem_of_mem_zipIdx hr)
  exact if_neg hne

/-- The number of an entry is its position in the ledger. -/
theorem mem_entriesOf : e ∈ entriesOf block first part ↔
    first ≤ e.sequence ∧ part[e.sequence - first]? = some (block, e.change) := by
  rw [← List.mk_mem_zipIdx_iff_le_and_getElem?_sub, entriesOf, List.mem_filterMap]
  simp only [entryAt_eq_some, exists_eq_right]

theorem pairwise_entriesOf :
    (entriesOf block first part).Pairwise fun e e' ↦ e.sequence < e'.sequence := by
  have hpositions : (part.zipIdx first).Pairwise fun r r' ↦ r.2 < r'.2 := by
    rw [← List.pairwise_map, List.zipIdx_map_snd]
    exact List.pairwise_lt_range'
  refine hpositions.filterMap _ fun r r' hlt e he e' he' ↦ ?_
  rw [entryAt_eq_some.mp he, entryAt_eq_some.mp he'] at hlt
  exact hlt

end Parts

/-! ## One call -/

section Step

variable {a : Auditor} {changes : List Change}

theorem lookup_append (journal : List (BlockIdentifier × List AuditedChange))
    (added : List AuditedChange) : ((append block added journal).lookup other).getD [] =
      (journal.lookup other).getD [] ++ if other = block then added else [] := by
  induction journal with
  | nil =>
    rw [append, Store.lookup_cons_eq]
    split <;> rfl
  | cons row journal ih =>
    obtain ⟨b, recorded⟩ := row
    unfold append
    split
    · rename_i hb
      subst hb
      rw [Store.lookup_cons_eq, Store.lookup_cons_eq]
      split
      · rfl
      · rw [List.append_nil]
    · rename_i hb
      rw [Store.lookup_cons_eq, Store.lookup_cons_eq]
      split
      · rename_i hother
        rw [if_neg (hother ▸ hb), List.append_nil]
      · exact ih

theorem changes_record : (a.record block changes).changes other =
    a.changes other ++ if other = block then number a.nextSequence changes else [] :=
  lookup_append a.journal _

theorem lookup_filter_ne (journal : List (BlockIdentifier × List AuditedChange)) :
    (journal.filter (·.1 ≠ block)).lookup other =
      if other = block then none else journal.lookup other := by
  induction journal with
  | nil => split <;> rfl
  | cons row journal ih =>
    obtain ⟨b, recorded⟩ := row
    rw [List.filter_cons, Store.lookup_cons_eq]
    split
    · rename_i hb
      have hb : b ≠ block := of_decide_eq_true hb
      rw [Store.lookup_cons_eq, ih]
      split
      · rename_i hother
        rw [if_neg (hother ▸ hb)]
      · rfl
    · rename_i hb
      have hb : b = block := by simpa using hb
      rw [ih, hb]
      split <;> rfl

theorem changes_take : (a.take block).2.changes other =
    if other = block then [] else a.changes other := by
  rw [take, changes, lookup_filter_ne]
  split <;> rfl

/-- A call forgets the changes of a block or adds to them. -/
theorem changes_step (a : Auditor) (block : BlockIdentifier) (c : Call) :
    (a.step c).changes block = if c.forgets block then [] else
      a.changes block ++ number a.nextSequence (c.recordedFor block) := by
  cases c with
  | record b changes =>
    refine changes_record.trans (congrArg _ ?_)
    rw [Call.recordedFor, apply_ite (number a.nextSequence)]
    simp only [eq_comm, number]
  | take b =>
    refine changes_take.trans ?_
    by_cases hb : block = b
    · rw [if_pos hb]
      exact (if_pos (decide_eq_true hb.symm)).symm
    · rw [if_neg hb, if_neg (by simpa [Call.forgets] using Ne.symm hb)]
      exact (List.append_nil _).symm
  | clear => rfl

theorem nextSequence_step (a : Auditor) (c : Call) :
    (a.step c).nextSequence = a.nextSequence + c.recorded.length := by
  cases c with
  | record block changes => exact congrArg _ (List.length_map _).symm
  | take | clear => rfl

theorem entriesOf_recorded (c : Call) :
    entriesOf block first c.recorded = number first (c.recordedFor block) := by
  cases c with
  | record b changes =>
    rw [Call.recorded, Call.recordedFor]
    split
    · rename_i hb
      rw [hb, entriesOf_self]
    · rename_i hb
      exact entriesOf_of_ne hb
  | take | clear => rfl

end Step

/-! ## Runs of calls -/

section Run

variable {calls later : List Call} {c : Call} {e : AuditedChange}

theorem run_append_singleton : run (calls ++ [c]) = (run calls).step c := by
  rw [run, List.foldl_append]
  rfl

theorem ledger_append : ledger (calls ++ later) = ledger calls ++ ledger later :=
  List.flatMap_append

theorem ledger_singleton : ledger [c] = c.recorded := List.append_nil _

theorem settled_append_singleton : settled block (calls ++ [c]) =
    if c.forgets block then calls ++ [c] else settled block calls := by
  rw [settled, List.rdropWhile_concat]
  cases c.forgets block <;> rfl

theorem pending_append_singleton : pending block (calls ++ [c]) =
    if c.forgets block then [] else pending block calls ++ [c] := by
  rw [pending, List.rtakeWhile_concat]
  cases c.forgets block <;> rfl

theorem settled_append_pending : settled block calls ++ pending block calls = calls := by
  induction calls using List.reverseRecOn with
  | nil => rfl
  | append_singleton calls c ih =>
    rw [settled_append_singleton, pending_append_singleton]
    split
    · exact List.append_nil _
    · rw [← List.append_assoc, ih]

theorem settled_prefix : settled block calls <+: calls :=
  ⟨_, settled_append_pending⟩

/-- What was forgotten stays forgotten. -/
theorem settled_prefix_append : settled block calls <+: settled block (calls ++ later) := by
  induction later using List.reverseRecOn with
  | nil => exact (List.append_nil calls).symm ▸ List.prefix_refl _
  | append_singleton later c ih =>
    rw [← List.append_assoc, settled_append_singleton]
    split
    · rw [List.append_assoc]
      exact settled_prefix.trans (List.prefix_append _ _)
    · exact ih

/-- Taking and clearing give no number free. -/
theorem nextSequence_run : (run calls).nextSequence = (ledger calls).length := by
  induction calls using List.reverseRecOn with
  | nil => rfl
  | append_singleton calls c ih =>
    rw [run_append_singleton, nextSequence_step, ih, ledger_append, ledger_singleton,
      List.length_append]

/-- An auditor holds for a block what was recorded since its changes were forgotten last, with the
positions that it has in the whole ledger. -/
theorem changes_run : (run calls).changes block =
    entriesOf block (ledger (settled block calls)).length (ledger (pending block calls)) := by
  induction calls using List.reverseRecOn with
  | nil => rfl
  | append_singleton calls c ih =>
    have hlength : (ledger (settled block calls)).length + (ledger (pending block calls)).length =
        (run calls).nextSequence := by
      rw [nextSequence_run, ← List.length_append, ← ledger_append, settled_append_pending]
    rw [run_append_singleton, changes_step, settled_append_singleton, pending_append_singleton]
    split
    · rfl
    · rw [ih, ledger_append, entriesOf_append, hlength, ledger_singleton, entriesOf_recorded]

theorem mem_changes_run : e ∈ (run calls).changes block ↔
    (ledger (settled block calls)).length ≤ e.sequence ∧
      (ledger calls)[e.sequence]? = some (block, e.change) := by
  rw [changes_run, mem_entriesOf]
  refine and_congr_right fun hle ↦ ?_
  have hledger : ledger calls = ledger (settled block calls) ++ ledger (pending block calls) := by
    rw [← ledger_append, settled_append_pending]
  rw [hledger, List.getElem?_append_right hle]

/-- Numbers have eight bytes as long as fewer changes than that were recorded. -/
theorem sequences_lt_size (hledger : (ledger calls).length < UInt64.size) :
    (run calls).nextSequence < UInt64.size ∧
      ∀ block, ∀ e ∈ (run calls).changes block, e.sequence < UInt64.size := by
  refine ⟨nextSequence_run.trans_lt hledger, fun block e he ↦ ?_⟩
  obtain ⟨-, hposition⟩ := mem_changes_run.mp he
  exact (List.getElem?_eq_some_iff.mp hposition).1.trans hledger

theorem map_change_number (first : ℕ) (changes : List Change) :
    (number first changes).map (·.change) = changes := by
  induction changes generalizing first with
  | nil => rfl
  | cons c changes ih => exact congrArg (c :: ·) (ih (first + 1))

theorem map_change_entriesOf_ledger (first : ℕ) (calls : List Call) :
    (entriesOf block first (ledger calls)).map (·.change) =
      calls.flatMap (Call.recordedFor block) := by
  induction calls generalizing first with
  | nil => rfl
  | cons c calls ih =>
    rw [ledger, List.flatMap_cons, List.flatMap_cons, entriesOf_append, List.map_append,
      entriesOf_recorded, map_change_number]
    exact congrArg _ (ih _)

/-- What is recorded later than some entry has a larger number. -/
theorem sequence_lt_of_later {e' : AuditedChange} (he : e ∈ (run calls).changes block)
    (he' : e' ∈ (run (calls ++ later)).changes other) (hlater : e' ∉ (run calls).changes other) :
    e.sequence < e'.sequence := by
  obtain ⟨-, hposition⟩ := mem_changes_run.mp he
  obtain ⟨hle, hposition'⟩ := mem_changes_run.mp he'
  refine (List.getElem?_eq_some_iff.mp hposition).1.trans_le ?_
  by_contra hlt
  refine hlater (mem_changes_run.mpr ⟨le_trans ?_ hle, ?_⟩)
  · have hprefix : settled other calls <+: settled other (calls ++ later) := settled_prefix_append
    obtain ⟨l, hl⟩ := hprefix
    rw [← hl, ledger_append, List.length_append]
    exact Nat.le_add_right _ _
  · rwa [ledger_append, List.getElem?_append_left (Nat.lt_of_not_le hlt)] at hposition'

end Run

/-- Taking the changes of a block gives what was recorded for it since they were taken or cleared
last, in that order, and leaves the changes of all other blocks in place.  The changes that are held
for a block are the part of the ledger since then, each numbered by its position in all of it.  So
numbers grow within a block, no two entries of any blocks have the same one, and what is recorded
later has a larger one than all that was held before, whether it is still there or not. -/
theorem take_returns_pending (calls : List Call) (block : BlockIdentifier) :
    ((run calls).take block).1 = (pending block calls).flatMap (Call.recordedFor block) ∧
    ((run calls).take block).2.changes block = [] ∧
    (∀ other, other ≠ block →
      ((run calls).take block).2.changes other = (run calls).changes other) ∧
    ((run calls).changes block).Pairwise (fun e e' ↦ e.sequence < e'.sequence) ∧
    (∀ e, e ∈ (run calls).changes block ↔
      (ledger (settled block calls)).length ≤ e.sequence ∧
        (ledger calls)[e.sequence]? = some (block, e.change)) ∧
    ∀ other e e', e ∈ (run calls).changes block →
      (e' ∈ (run calls).changes other → e'.sequence = e.sequence → other = block ∧ e' = e) ∧
      ∀ later, e' ∈ (run (calls ++ later)).changes other → e' ∉ (run calls).changes other →
        e.sequence < e'.sequence := by
  refine ⟨?_, changes_take.trans (if_pos rfl), fun other hne ↦ changes_take.trans (if_neg hne), ?_,
    fun e ↦ mem_changes_run, fun other e e' he ↦ ⟨fun he' heq ↦ ?_, fun later ↦ ?_⟩⟩
  · rw [take, changes_run, pending, map_change_entriesOf_ledger]
  · rw [changes_run]
    exact pairwise_entriesOf
  · have hposition := (mem_changes_run.mp he).2
    have hposition' := (mem_changes_run.mp he').2
    rw [heq, hposition, Option.some.injEq, Prod.mk.injEq] at hposition'
    obtain ⟨m, c⟩ := e
    obtain ⟨m', c'⟩ := e'
    obtain ⟨rfl, rfl⟩ := hposition'
    exact ⟨rfl, congrArg (AuditedChange.mk · c) heq⟩
  · exact sequence_lt_of_later he

/-- An identifier of zeros, and one that ends in a one. -/
def sampleBlock (last : UInt8) : BlockIdentifier := ⟨List.replicate 63 0 ++ [last], rfl⟩

/-- Two blocks are recorded in turn, and the first one is taken in between. -/
def interleaved : List Call :=
  let change (tag : UInt8) : Change := ⟨.veriBlock, .setHead, [tag], [tag + 1]⟩
  [.record (sampleBlock 0) [change 0, change 2], .record (sampleBlock 1) [change 4],
    .take (sampleBlock 0), .record (sampleBlock 0) [change 0]]

/-- A block that is recorded again after it was taken gets new numbers. -/
theorem interleaved_takes :
    ((run interleaved).take (sampleBlock 0)).1 = [⟨.veriBlock, .setHead, [0], [1]⟩] ∧
    ((run interleaved).take (sampleBlock 0)).2.changes (sampleBlock 1) =
      (run interleaved).changes (sampleBlock 1) ∧
    ∀ e ∈ (run (interleaved.take 2)).changes (sampleBlock 0),
      ∀ e' ∈ (run interleaved).changes (sampleBlock 0), e.sequence < e'.sequence := by
  obtain ⟨htake, -, hothers, -⟩ := take_returns_pending interleaved (sampleBlock 0)
  obtain ⟨-, -, -, -, -, hnumbers⟩ := take_returns_pending (interleaved.take 2) (sampleBlock 0)
  refine ⟨htake.trans (by decide), hothers (sampleBlock 1) (by decide), fun e he e' he' ↦ ?_⟩
  refine (hnumbers (sampleBlock 0) e e' he).2 (interleaved.drop 2) he' ?_
  revert e' he'
  decide

end EndorsedChain.Auditor
