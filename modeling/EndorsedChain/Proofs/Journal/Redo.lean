import EndorsedChain.Proofs.Journal.Packable
import EndorsedChain.Proofs.Journal.Undo

/-!
# Redoing a journal

Changes can be carried out again, first to last, on a store that is as it was before them.  A change
whose edit fits the store says what the store holds where it is about to write (`Edit.Fits.records`)
and leads to the store after the edit (`Edit.Fits.redo`), and so do the changes of a whole run
(`Journals.replays`).  As in undoing, this is stated for any store that is the same up to order: an
entry that gets a proof is taken out and put back at the end, but redone in place.
-/

namespace EndorsedChain

open VeriBlock

variable {known : Set Header} {s t u : Store Entry VBlake} {edit : Edit} {edits : List Edit}
  {changes : List Change} {c : Change}

/-- Carries out one change again: its new entry is put into the store, or becomes the head.  Changes
of other chains are skipped. -/
def redo (store : Store Entry VBlake) (c : Change) : Except Index.Error (Store Entry VBlake) :=
  match c.chain with
  | .bitcoin => .ok store
  | .veriBlock =>
    match decodeEntry c.newValue with
    | .error e => .error e
    | .ok new =>
      match c.operation with
      | .addBlock | .setProof => .ok (store.put new)
      | .setHead =>
        match store.setHead new with
        | .error e => .error (.store e)
        | .ok (_, moved) => .ok moved

/-- Whether the values of a change say what a store holds before it: no entry with the hash of the
new one; the entry without the new proof; the head, or the placeholder as long as there is none. -/
def Change.Records (c : Change) (store : Store Entry VBlake) : Prop :=
  match c.operation with
  | .addBlock =>
    c.oldValue = [] ∧ ∃ added, decodeEntry c.newValue = .ok added ∧ store.get added.hash = none
  | .setHead => decodeEntry c.oldValue = .ok (store.head.getD Edit.placeholder)
  | .setProof =>
    ∃ prior proof, decodeEntry c.oldValue = .ok prior ∧ store.get prior.hash = some prior ∧
      decodeEntry c.newValue = .ok { prior with proof }

/-- Changes are carried out again one after the other.  Each one says what is stored before it. -/
inductive Replays : Store Entry VBlake → List Change → Store Entry VBlake → Prop
  | nil (s : Store Entry VBlake) : Replays s [] s
  | cons {s t u : Store Entry VBlake} {c : Change} {cs : List Change} (hrecords : c.Records s)
    (hredo : redo s c = .ok t) (hrest : Replays t cs u) : Replays s (c :: cs) u

/-! ## One edit -/

/-- A head is told by its identifier, in whatever order the entries are stored. -/
theorem Store.Sound.head_eq_of_same (hs : s.Sound known) (ht : t.Sound known)
    (hst : Store.Same t s) : t.head = s.head := by
  apply Option.ext
  intro e
  rw [ht.head_eq_some_iff, hs.head_eq_some_iff, hst.mem_iff, hst.headId]

namespace Edit

/-- What an edit does when it is carried out again: an entry that gets a proof stays in its place. -/
def reapply (s : Store Entry VBlake) : Edit → Store Entry VBlake
  | .addBlock added => s.put added
  | .setHead _ head => { s with headId := some head.hash }
  | .setProof _ proven => s.put proven

theorem reapply_keyed (hs : s.Keyed) (edit : Edit) : (edit.reapply s).Keyed := by
  cases edit with
  | addBlock | setProof => exact hs.put _
  | setHead => exact hs.congr rfl

/-- An edit is read back from its change and carried out again. -/
theorem redo_of_toChange? (hc : edit.toChange? = some c)
    (hhead : edit.operation = .setHead → t.contains edit.after.hash = true) :
    redo t c = .ok (edit.reapply t) := by
  obtain ⟨hoperation, hnew, -⟩ := decode_of_toChange? hc
  simp only [redo, (old_of_toChange? hc).1, hnew, hoperation]
  cases edit with
  | addBlock | setProof => rfl
  | setHead prior head =>
    have hset : t.setHead head = .ok (t.head, { t with headId := some head.hash }) :=
      if_pos (hhead rfl)
    simp only [operation, after, hset]
    rfl

namespace Fits

/-- The change of an edit that fits says what is stored before it. -/
theorem records (hs : s.Sound known) (h : edit.Fits known s) (hc : edit.toChange? = some c)
    (ht : t.Sound known) (hst : Store.Same t s) : c.Records t := by
  obtain ⟨hoperation, hnew, -⟩ := decode_of_toChange? hc
  have hold := (old_of_toChange? hc).2
  rw [Change.Records, hoperation]
  cases h with
  | addBlock _ _ hfresh =>
    refine ⟨hold, _, hnew, (Store.get_hash_eq_none_iff ht.keyed).mpr fun e he ↦ ?_⟩
    exact hfresh e (hst.mem_iff.mp he)
  | setHead =>
    rw [← hs.head_eq_of_same ht hst] at hold
    exact hold
  | setProof hprior proof =>
    exact ⟨_, proof, hold, Store.get_hash ht.keyed (hst.mem_iff.mpr hprior), hnew⟩

/-- Carrying out an edit again leads to the same entries as carrying it out for the first time. -/
theorem mem_reapply_iff (hs : s.Sound known) (h : edit.Fits known s) (ht : t.Keyed)
    (hst : Store.Same t s) {x : Entry} :
    x ∈ (edit.reapply t).blocks ↔ x ∈ (edit.apply s).blocks := by
  cases h with
  | addBlock =>
    rw [reapply, apply, Store.mem_blocks_put ht, Store.mem_blocks_put hs.keyed, hst.mem_iff]
  | setHead => exact hst.mem_iff
  | @setProof prior hprior proof =>
    rw [reapply, Store.mem_blocks_put ht, mem_setProof hs.keyed hprior, hst.mem_iff]
    refine or_congr_right (and_congr_right fun hx ↦ not_congr ⟨fun hid ↦ ?_, fun heq ↦ ?_⟩)
    · exact hs.keyed.eq_of_id_eq hx hprior hid
    · exact (congrArg Entry.hash heq : x.hash = prior.hash)

/-- The change of an edit that fits leads from the store before the edit to the one after it. -/
theorem redo (hs : s.Sound known) (h : edit.Fits known s) (hc : edit.toChange? = some c)
    (ht : t.Sound known) (hst : Store.Same t s) :
    ∃ u, redo t c = .ok u ∧ u.Keyed ∧ Store.Same u (edit.apply s) := by
  refine ⟨edit.reapply t, redo_of_toChange? hc ?_, reapply_keyed ht.keyed edit, ?_, ?_⟩
  · intro hoperation
    cases h with
    | addBlock | setProof => cases hoperation
    | setHead he hhash =>
      have hget := Store.get_hash ht.keyed (hst.mem_iff.mpr he)
      rw [hhash] at hget
      exact congrArg Option.isSome hget
  · have hkeyed := (h.apply_sound hs).keyed
    exact (List.perm_ext_iff_of_nodup (reapply_keyed ht.keyed edit).nodup_blocks
      hkeyed.nodup_blocks).mpr fun x ↦ h.mem_reapply_iff hs ht.keyed hst
  · cases h with
    | addBlock | setProof => exact hst.headId
    | setHead => rfl

end Fits

end Edit

/-! ## Runs of edits -/

/-- The changes of a run of edits lead from the store before the run to the one after it. -/
theorem Journals.replays (h : Journals known s edits t) (hs : s.Sound known)
    (hc : edits.mapM Edit.toChange? = some changes) (hu : u.Keyed) (hus : Store.Same u s) :
    ∃ v, Replays u changes v ∧ v.Keyed ∧ Store.Same v t := by
  induction h generalizing u changes with
  | nil s =>
    cases hc
    exact ⟨u, .nil u, hu, hus⟩
  | @cons s t edit edits hedit _ ih =>
    simp only [List.mapM_cons, Option.bind_eq_bind, Option.bind_eq_some_iff, Option.pure_def,
      Option.some.injEq] at hc
    obtain ⟨c, hc, cs, hcs, rfl⟩ := hc
    have husound : u.Sound known := hs.of_same hu hus
    obtain ⟨v, hv, hvkeyed, hvsame⟩ := hedit.redo hs hc husound hus
    obtain ⟨w, hw, hwkeyed, hwsame⟩ := ih (hedit.apply_sound hs) hcs hvkeyed hvsame
    exact ⟨w, .cons (hedit.records hs hc husound hus) hv hw, hwkeyed, hwsame⟩

end EndorsedChain
