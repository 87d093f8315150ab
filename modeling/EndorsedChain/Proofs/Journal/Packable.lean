import EndorsedChain.Index.Add
import EndorsedChain.Proofs.Entry.Packing

/-!
# Works that can be journaled

The length of a work is packed in one byte.  An edit has a packed form exactly if the works of all
entries that it names have at most 255 bytes, and a mutation whose edits have no packed form dies.
The entries can be read back from the packed form.
-/

namespace EndorsedChain

open VeriBlock

variable {edit : Edit} {edits : List Edit} {changes : List Change} {c : Change}

/-- The bytes of a work can be counted in one byte. -/
def Packable (work : Nat) : Prop := BigEndian.width work ≤ 255

instance (work : Nat) : Decidable (Packable work) := inferInstanceAs (Decidable (_ ≤ _))

theorem Packable.mono {m n : Nat} (hle : m ≤ n) (h : Packable n) : Packable m :=
  Nat.le_trans (BigEndian.width_mono hle) h

theorem VeriBlock.Entry.isSome_pack?_iff {e : Entry} :
    e.pack?.isSome = true ↔ Packable e.work := by
  unfold Entry.pack? packSized? Packable
  rw [BigEndian.length_minimal]
  split
  · rename_i hle
    exact iff_of_true rfl hle
  · rename_i hgt
    exact iff_of_false Bool.false_ne_true hgt

/-- Whatever entry is read from bytes has a work that can be packed. -/
theorem packable_of_decodeEntry {bytes : List UInt8} {e : Entry}
    (h : decodeEntry bytes = .ok e) : Packable e.work := by
  have hread : Entry.read.readAll bytes = .ok e := by
    unfold decodeEntry at h
    cases hread : Entry.read.readAll bytes with
    | error => rw [hread] at h; cases h
    | ok x => rw [hread] at h; exact congrArg Except.ok (Except.ok.inj h)
  obtain ⟨x, rest, hentry, hend⟩ := Reader.bind_eq_ok (Prod.ext hread rfl)
  obtain ⟨_, _, -, hpure⟩ := Reader.bind_eq_ok hend
  cases hpure
  obtain ⟨header, _, -, hentry⟩ := Reader.bind_eq_ok hentry
  obtain ⟨work, _, hwork, hentry⟩ := Reader.bind_eq_ok hentry
  obtain ⟨proof, _, -, hentry⟩ := Reader.bind_eq_ok hentry
  cases hentry
  have hlength := Reader.length_le_of_sized hwork
  have hwidth := BigEndian.width_decode_le work
  unfold Packable
  dsimp only
  omega

namespace Edit

/-- The entries that an edit names, of which each was stored or is put into the store. -/
def entries : Edit → List Entry
  | .addBlock added => [added]
  | .setHead prior head => prior.toList ++ [head]
  | .setProof prior proven => [prior, proven]

def operation : Edit → Operation
  | .addBlock _ => .addBlock
  | .setHead _ _ => .setHead
  | .setProof _ _ => .setProof

/-- The entry that an edit leads to. -/
def after : Edit → Entry
  | .addBlock added => added
  | .setHead _ head => head
  | .setProof _ proven => proven

/-- The entry that an edit starts from, where it does not add one. -/
def before? : Edit → Option Entry
  | .addBlock _ => none
  | .setHead prior _ => some (prior.getD placeholder)
  | .setProof prior _ => some prior

/-- What a packed edit says of the store before it. -/
theorem old_of_toChange? (h : edit.toChange? = some c) : c.chain = .veriBlock ∧
    match edit.before? with
    | none => c.oldValue = []
    | some e => decodeEntry c.oldValue = .ok e := by
  cases edit with
  | addBlock added =>
    simp only [toChange?, Option.bind_eq_bind, Option.bind_eq_some_iff, Option.pure_def,
      Option.some.injEq] at h
    obtain ⟨new, hnew, rfl⟩ := h
    exact ⟨rfl, rfl⟩
  | setHead | setProof =>
    simp only [toChange?, Option.bind_eq_bind, Option.bind_eq_some_iff, Option.pure_def,
      Option.some.injEq] at h
    obtain ⟨old, hold, new, hnew, rfl⟩ := h
    exact ⟨rfl, decodeEntry_of_pack hold⟩

/-- What a packed edit says.  The value before the first head is none of its entries. -/
theorem decode_of_toChange? (h : edit.toChange? = some c) :
    c.operation = edit.operation ∧ decodeEntry c.newValue = .ok edit.after ∧
      (edit.operation ≠ .setHead →
        ∀ e, decodeEntry c.oldValue = .ok e → e ∈ edit.entries) := by
  cases edit with
  | addBlock added =>
    simp only [toChange?, Option.bind_eq_bind, Option.bind_eq_some_iff, Option.pure_def,
      Option.some.injEq] at h
    obtain ⟨new, hnew, rfl⟩ := h
    exact ⟨rfl, decodeEntry_of_pack hnew, fun _ e he ↦ by cases he⟩
  | setHead prior head =>
    simp only [toChange?, Option.bind_eq_bind, Option.bind_eq_some_iff, Option.pure_def,
      Option.some.injEq] at h
    obtain ⟨old, hold, new, hnew, rfl⟩ := h
    exact ⟨rfl, decodeEntry_of_pack hnew, fun hne ↦ absurd rfl hne⟩
  | setProof prior proven =>
    simp only [toChange?, Option.bind_eq_bind, Option.bind_eq_some_iff, Option.pure_def,
      Option.some.injEq] at h
    obtain ⟨old, hold, new, hnew, rfl⟩ := h
    refine ⟨rfl, decodeEntry_of_pack hnew, fun _ e he ↦ ?_⟩
    rw [decodeEntry_of_pack hold] at he
    exact Except.ok.inj he ▸ List.mem_cons_self

theorem isSome_toChange?_iff :
    edit.toChange?.isSome = true ↔ ∀ e ∈ edit.entries, Packable e.work := by
  simp only [← Entry.isSome_pack?_iff]
  cases edit with
  | addBlock added =>
    simp only [entries, List.forall_mem_singleton, toChange?]
    cases added.pack? <;> rfl
  | setHead prior head =>
    have hplaceholder : placeholder.pack?.isSome = true := Entry.isSome_pack?_iff.mpr (by decide)
    cases prior with
    | none =>
      obtain ⟨bytes, hbytes⟩ := Option.isSome_iff_exists.mp hplaceholder
      simp only [entries, Option.toList_none, List.nil_append, List.forall_mem_singleton,
        toChange?, Option.getD_none, hbytes]
      cases head.pack? <;> simp
    | some prior =>
      simp only [entries, Option.toList_some, List.singleton_append, List.forall_mem_cons,
        toChange?, Option.getD_some]
      cases prior.pack? <;> cases head.pack? <;> simp
  | setProof prior proven =>
    simp only [entries, List.forall_mem_cons, toChange?]
    cases prior.pack? <;> cases proven.pack? <;> simp

theorem isSome_mapM_toChange?_iff : (edits.mapM toChange?).isSome = true ↔
    ∀ edit ∈ edits, ∀ e ∈ edit.entries, Packable e.work := by
  induction edits with
  | nil => exact iff_of_true rfl (List.forall_mem_nil _)
  | cons edit edits ih =>
    rw [List.forall_mem_cons, ← ih, ← isSome_toChange?_iff, List.mapM_cons]
    cases edit.toChange? <;> cases edits.mapM toChange? <;> simp

/-- Each change of a mutation is the packed form of one of its edits. -/
theorem mem_of_mapM_toChange? (h : edits.mapM toChange? = some changes) (hc : c ∈ changes) :
    ∃ edit ∈ edits, edit.toChange? = some c := by
  induction edits generalizing changes with
  | nil => cases h; cases hc
  | cons edit edits ih =>
    simp only [List.mapM_cons, Option.bind_eq_bind, Option.bind_eq_some_iff, Option.pure_def,
      Option.some.injEq] at h
    obtain ⟨d, hd, ds, hds, rfl⟩ := h
    rcases List.mem_cons.mp hc with rfl | hc
    · exact ⟨edit, List.mem_cons_self, hd⟩
    · obtain ⟨x, hx, hxc⟩ := ih hds hc
      exact ⟨x, List.mem_cons_of_mem edit hx, hxc⟩

end Edit

/-- A mutation dies exactly if it was carried out and one of its entries cannot be packed. -/
theorem Index.journal_eq_workTooWide_iff {result : Except Index.Error (List Edit)} :
    Index.journal result = .error .workTooWide ↔
      ∃ edits, result = .ok edits ∧ ¬∀ edit ∈ edits, ∀ e ∈ edit.entries, Packable e.work := by
  cases result with
  | error e => simp [Index.journal]
  | ok edits =>
    simp only [Except.ok.injEq, exists_eq_left', ← Edit.isSome_mapM_toChange?_iff, Index.journal]
    cases edits.mapM Edit.toChange? <;> simp

end EndorsedChain
