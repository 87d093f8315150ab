import EndorsedChain.Index.Rewind
import EndorsedChain.Proofs.Entry.Packing
import EndorsedChain.Proofs.Store.Distinct

/-!
# Undoing a journal

An edit fits a store if it adds what is missing, attaches a proof to what is stored, or moves the
head away from where it is.  The packed form of an edit that fits undoes it (`Edit.Fits.undo`),
and so do the packed forms of a run of edits in reverse (`Journals.undoEach`).  A store comes back
with its buckets in another order, so both are stated for any store that is the same up to order.
-/

namespace EndorsedChain

open VeriBlock

variable {known : Set Header} {s t u : Store Entry VBlake} {edit : Edit} {edits more : List Edit}

/-! ## Sound stores -/

namespace Store

/-- The stored headers are valid, and a head that was set is stored. -/
structure Sound (known : Set Header) (s : Store Entry VBlake) : Prop extends s.Holds known where
  work_ok : ∀ e ∈ s.blocks, ∃ work, e.header.work = .ok work
  head_stored : ∀ id, s.headId = some id → ∃ e ∈ s.blocks, e.hash = id

theorem Sound.empty : (Store.empty : Store Entry VBlake).Sound known where
  toHolds := Holds.empty
  work_ok _ he := absurd he List.not_mem_nil
  head_stored _ h := by cases h

theorem Holds.of_same (hs : s.Holds known) (ht : t.Keyed) (h : Same t s) : t.Holds known :=
  ⟨ht, fun e he ↦ hs.mem_known e (h.mem_iff.mp he)⟩

theorem Sound.of_same (hs : s.Sound known) (ht : t.Keyed) (h : Same t s) : t.Sound known where
  toHolds := hs.toHolds.of_same ht h
  work_ok e he := hs.work_ok e (h.mem_iff.mp he)
  head_stored id hid := by
    obtain ⟨e, he, hhash⟩ := hs.head_stored id (h.headId ▸ hid)
    exact ⟨e, h.mem_iff.mpr he, hhash⟩

/-- The head of a sound store is the stored entry that the head identifier was taken from. -/
theorem Sound.head_eq_some_iff (hs : s.Sound known) {e : Entry} :
    s.head = some e ↔ e ∈ s.blocks ∧ s.headId = some e.hash := by
  unfold head
  rw [Option.bind_eq_some_iff]
  constructor
  · rintro ⟨id, hid, hget⟩
    obtain ⟨x, hx, rfl⟩ := hs.head_stored id hid
    rw [get_hash hs.keyed hx, Option.some.injEq] at hget
    subst hget
    exact ⟨hx, hid⟩
  · rintro ⟨he, hid⟩
    exact ⟨e.hash, hid, get_hash hs.keyed he⟩

theorem Sound.head_eq_none_iff (hs : s.Sound known) :
    s.head = none ↔ s.headId = none := by
  constructor
  · intro h
    cases hid : s.headId with
    | none => rfl
    | some id =>
      obtain ⟨e, he, rfl⟩ := hs.head_stored id hid
      rw [hs.head_eq_some_iff.mpr ⟨he, hid⟩] at h
      cases h
  · intro h
    rw [head, h, Option.bind_none]

/-- The placeholder has no work, so it cannot be taken for a head. -/
theorem Sound.ne_placeholder (hs : s.Sound known) {e : Entry} (he : e ∈ s.blocks) :
    e ≠ Edit.placeholder := by
  rintro rfl
  obtain ⟨work, hwork⟩ := hs.work_ok _ he
  cases hwork

end Store

/-! ## Edits and the stores that they fit -/

namespace Edit

/-- What an edit does to a store. -/
def apply (s : Store Entry VBlake) : Edit → Store Entry VBlake
  | .addBlock added => s.put added
  | .setHead _ head => { s with headId := some head.hash }
  | .setProof prior proven => (s.remove prior.hash).2.put proven

/-- Whether an edit says of a store what is the case. -/
inductive Fits (known : Set Header) (s : Store Entry VBlake) : Edit → Prop
  | addBlock {added : Entry} (hknown : added.header ∈ known)
    (hwork : ∃ work, added.header.work = .ok work)
    (hfresh : ∀ e ∈ s.blocks, e.hash ≠ added.hash) : Fits known s (.addBlock added)
  | setHead {e head : Entry} (he : e ∈ s.blocks) (hhash : e.hash = head.hash) :
    Fits known s (.setHead s.head head)
  | setProof {prior : Entry} (hprior : prior ∈ s.blocks) (proof : Digest) :
    Fits known s (.setProof prior { prior with proof })

theorem apply_keyed (hs : s.Keyed) (edit : Edit) : (edit.apply s).Keyed := by
  cases edit with
  | addBlock added => exact hs.put added
  | setHead prior head => exact hs.congr rfl
  | setProof prior proven => exact (hs.remove _).put proven

/-- The blocks after an edit that attaches a proof. -/
theorem mem_setProof (hs : s.Keyed) {prior x : Entry} (hprior : prior ∈ s.blocks)
    (proof : Digest) :
    x ∈ ((Edit.setProof prior { prior with proof }).apply s).blocks ↔
      x = { prior with proof } ∨ x ∈ s.blocks ∧ x ≠ prior :=
  Store.mem_blocks_replace hs hprior rfl

/-- No edit that fits takes a header away. -/
theorem Fits.header_mem (hs : s.Keyed) (h : edit.Fits known s) {e : Entry} (he : e ∈ s.blocks) :
    ∃ x ∈ (edit.apply s).blocks, x.header = e.header := by
  cases h with
  | addBlock hknown hwork hfresh =>
    exact ⟨e, (Store.mem_blocks_put hs).mpr (.inr ⟨he, hfresh e he⟩), rfl⟩
  | setHead => exact ⟨e, he, rfl⟩
  | @setProof prior hprior proof =>
    by_cases heq : e = prior
    · subst heq
      exact ⟨_, (mem_setProof hs hprior proof).mpr (.inl rfl), rfl⟩
    · exact ⟨e, (mem_setProof hs hprior proof).mpr (.inr ⟨he, heq⟩), rfl⟩

/-- What is stored after an edit that fits is a header that is known and has work. -/
theorem Fits.header_ok (hs : s.Sound known) (h : edit.Fits known s) {x : Entry}
    (hx : x ∈ (edit.apply s).blocks) :
    x.header ∈ known ∧ ∃ work, x.header.work = .ok work := by
  have hstored {e : Entry} (he : e ∈ s.blocks) :
      e.header ∈ known ∧ ∃ work, e.header.work = .ok work := ⟨hs.mem_known e he, hs.work_ok e he⟩
  cases h with
  | addBlock hknown hwork hfresh =>
    rcases (Store.mem_blocks_put hs.keyed).mp hx with rfl | ⟨hx, -⟩
    · exact ⟨hknown, hwork⟩
    · exact hstored hx
  | setHead => exact hstored hx
  | @setProof prior hprior proof =>
    rcases (mem_setProof hs.keyed hprior proof).mp hx with rfl | ⟨hx, -⟩
    · exact hstored (e := prior) hprior
    · exact hstored hx

theorem Fits.apply_sound (hs : s.Sound known) (h : edit.Fits known s) :
    (edit.apply s).Sound known where
  keyed := apply_keyed hs.keyed edit
  mem_known _ hx := (h.header_ok hs hx).1
  work_ok _ hx := (h.header_ok hs hx).2
  head_stored id hid := by
    have hmem {e : Entry} (he : e ∈ s.blocks) := h.header_mem hs.keyed he
    cases h with
    | addBlock | setProof =>
      obtain ⟨e, he, rfl⟩ := hs.head_stored id hid
      obtain ⟨x, hx, hheader⟩ := hmem he
      exact ⟨x, hx, congrArg Header.hash hheader⟩
    | setHead he hhash =>
      cases hid
      exact ⟨_, he, hhash⟩

/-! ## One edit -/

section Undo

variable {c : Change} {added head prior : Entry}

theorem undo_addBlock (hs : s.Sound known) (ht : t.Sound known)
    (hfresh : ∀ e ∈ s.blocks, e.hash ≠ added.hash) (hc : (addBlock added).toChange? = some c)
    (hst : Store.Same t ((addBlock added).apply s)) :
    ∃ u, undo t c = (u, .ok ()) ∧ u.Keyed ∧ Store.Same u s := by
  simp only [toChange?, Option.bind_eq_bind, Option.bind_eq_some_iff, Option.pure_def,
    Option.some.injEq] at hc
  obtain ⟨bytes, hpack, rfl⟩ := hc
  have hadded : added ∈ t.blocks :=
    hst.mem_iff.mpr ((Store.mem_blocks_put hs.keyed).mpr (.inl rfl))
  refine ⟨(t.remove added.hash).2, ?_, ht.keyed.remove _, ?_⟩
  · simp only [EndorsedChain.undo, decodeEntry_of_pack hpack, List.isEmpty_nil, if_true]
  · refine Store.Same.of_mem_iff (ht.toHolds.remove _) hs.toHolds (fun x ↦ ?_) hst.headId
    rw [Store.mem_blocks_remove ht.keyed, Store.get_hash ht.keyed hadded, hst.mem_iff,
      apply, Store.mem_blocks_put hs.keyed, ne_eq (some added), Option.some.injEq]
    constructor
    · rintro ⟨rfl | ⟨hx, -⟩, hne⟩
      · exact absurd rfl hne
      · exact hx
    · intro hx
      exact ⟨.inr ⟨hx, hfresh x hx⟩, fun heq ↦ hfresh x hx (congrArg Entry.hash heq).symm⟩

theorem undo_setHead (hs : s.Sound known) (ht : t.Sound known)
    (hc : (setHead s.head head).toChange? = some c)
    (hst : Store.Same t ((setHead s.head head).apply s)) :
    ∃ u, undo t c = (u, .ok ()) ∧ u.Keyed ∧ Store.Same u s := by
  simp only [toChange?, Option.bind_eq_bind, Option.bind_eq_some_iff, Option.pure_def,
    Option.some.injEq] at hc
  obtain ⟨old, hold, new, hnew, rfl⟩ := hc
  cases hhead : s.head with
  | none =>
    rw [hhead, Option.getD_none] at hold
    refine ⟨t.unsetHead.2, ?_, ht.keyed.congr rfl, ?_⟩
    · simp only [EndorsedChain.undo, decodeEntry_of_pack hold, if_true]
    · exact ⟨hst.perm, (hs.head_eq_none_iff.mp hhead).symm⟩
  | some prior =>
    rw [hhead, Option.getD_some] at hold
    obtain ⟨hprior, hid⟩ := hs.head_eq_some_iff.mp hhead
    have hmem : prior ∈ t.blocks := hst.mem_iff.mpr hprior
    have hset : t.setHead prior = .ok (t.head, { t with headId := some prior.hash }) :=
      if_pos (congrArg Option.isSome (Store.get_hash ht.keyed hmem))
    refine ⟨{ t with headId := some prior.hash }, ?_, ht.keyed.congr rfl, hst.perm, hid.symm⟩
    simp only [EndorsedChain.undo, decodeEntry_of_pack hold, if_neg (hs.ne_placeholder hprior),
      hset]

theorem undo_setProof (hs : s.Sound known) (ht : t.Sound known)
    (hprior : prior ∈ s.blocks) {proof : Digest}
    (hc : (setProof prior { prior with proof }).toChange? = some c)
    (hst : Store.Same t ((setProof prior { prior with proof }).apply s)) :
    ∃ u, undo t c = (u, .ok ()) ∧ u.Keyed ∧ Store.Same u s := by
  simp only [toChange?, Option.bind_eq_bind, Option.bind_eq_some_iff, Option.pure_def,
    Option.some.injEq] at hc
  obtain ⟨old, hold, new, hnew, rfl⟩ := hc
  have hproven : { prior with proof } ∈ t.blocks :=
    hst.mem_iff.mpr ((mem_setProof hs.keyed hprior proof).mpr (.inl rfl))
  refine ⟨(t.remove prior.hash).2.put prior, ?_, (ht.keyed.remove _).put _, ?_⟩
  · simp only [EndorsedChain.undo, decodeEntry_of_pack hold]
  · refine Store.Same.of_mem_iff ((ht.toHolds.remove _).put (hs.mem_known prior hprior))
      hs.toHolds (fun x ↦ ?_) hst.headId
    have hreplace : x ∈ ((t.remove prior.hash).2.put prior).blocks ↔
        x = prior ∨ x ∈ t.blocks ∧ x ≠ { prior with proof } :=
      Store.mem_blocks_replace ht.keyed hproven rfl
    rw [hreplace, hst.mem_iff, mem_setProof hs.keyed hprior]
    constructor
    · rintro (rfl | ⟨rfl | ⟨hx, -⟩, hne⟩)
      · exact hprior
      · exact absurd rfl hne
      · exact hx
    · intro hx
      refine or_iff_not_imp_left.mpr fun hne ↦ ⟨.inr ⟨hx, hne⟩, fun heq ↦ hne ?_⟩
      exact hs.toHolds.eq_of_header_eq hx hprior (heq ▸ rfl)

/-- The packed form of an edit that fits takes the store after it back to the store before. -/
theorem Fits.undo (hs : s.Sound known) (h : edit.Fits known s)
    (hc : edit.toChange? = some c) (ht : t.Keyed) (hst : Store.Same t (edit.apply s)) :
    ∃ u, undo t c = (u, .ok ()) ∧ u.Keyed ∧ Store.Same u s := by
  have hsound : t.Sound known := (h.apply_sound hs).of_same ht hst
  cases h with
  | addBlock _ _ hfresh => exact undo_addBlock hs hsound hfresh hc hst
  | setHead => exact undo_setHead hs hsound hc hst
  | setProof hprior => exact undo_setProof hs hsound hprior hc hst

end Undo

end Edit

/-! ## Runs of edits -/

/-- Each edit fits the store that the ones before it lead to. -/
inductive Journals (known : Set Header) :
    Store Entry VBlake → List Edit → Store Entry VBlake → Prop
  | nil (s : Store Entry VBlake) : Journals known s [] s
  | cons {s t : Store Entry VBlake} {edit : Edit} {edits : List Edit}
    (hedit : edit.Fits known s) (hedits : Journals known (edit.apply s) edits t) :
    Journals known s (edit :: edits) t

namespace Journals

theorem single (h : edit.Fits known s) : Journals known s [edit] (edit.apply s) := .cons h (.nil _)

theorem append (h : Journals known s edits t) (h' : Journals known t more u) :
    Journals known s (edits ++ more) u := by
  induction h with
  | nil => exact h'
  | cons hedit _ ih => exact .cons hedit (ih h')

theorem sound (h : Journals known s edits t) (hs : s.Sound known) : t.Sound known := by
  induction h with
  | nil => exact hs
  | cons hedit _ ih => exact ih (hedit.apply_sound hs)

/-- No run of edits takes a header away. -/
theorem header_mem (h : Journals known s edits t) (hs : s.Keyed) {e : Entry} (he : e ∈ s.blocks) :
    ∃ x ∈ t.blocks, x.header = e.header := by
  induction h generalizing e with
  | nil => exact ⟨e, he, rfl⟩
  | @cons s t edit _ hedit _ ih =>
    obtain ⟨x, hx, hheader⟩ := hedit.header_mem hs he
    obtain ⟨y, hy, hheader'⟩ := ih (edit.apply_keyed hs) hx
    exact ⟨y, hy, hheader'.trans hheader⟩

end Journals

theorem undoEach_append (s : Store Entry VBlake) (cs ds : List Change) :
    undoEach s (cs ++ ds) =
      match undoEach s cs with
      | (t, .error e) => (t, .error e)
      | (t, .ok ()) => undoEach t ds := by
  induction cs generalizing s with
  | nil => rfl
  | cons c cs ih =>
    rw [List.cons_append, undoEach, undoEach]
    rcases undo s c with ⟨t, _ | _⟩
    · rfl
    · exact ih t

/-- The packed forms of a run of edits, the last one first, take the store after the run back to
the store before. -/
theorem Journals.undoEach (h : Journals known s edits t) (hs : s.Sound known)
    {changes : List Change} (hc : edits.mapM Edit.toChange? = some changes)
    (hu : u.Keyed) (hut : Store.Same u t) :
    ∃ v, undoEach u changes.reverse = (v, .ok ()) ∧ v.Keyed ∧ Store.Same v s := by
  induction h generalizing changes with
  | nil s =>
    cases hc
    exact ⟨u, rfl, hu, hut⟩
  | @cons s t edit edits hedit _ ih =>
    simp only [List.mapM_cons, Option.bind_eq_bind, Option.bind_eq_some_iff, Option.pure_def,
      Option.some.injEq] at hc
    obtain ⟨c, hc, cs, hcs, rfl⟩ := hc
    obtain ⟨v, hv, hvkeyed, hvsame⟩ := ih (hedit.apply_sound hs) hcs hut
    obtain ⟨w, hw, hwkeyed, hwsame⟩ := hedit.undo hs hc hvkeyed hvsame
    refine ⟨w, ?_, hwkeyed, hwsame⟩
    rw [List.reverse_cons, undoEach_append, hv]
    simp only [EndorsedChain.undoEach, hw]

end EndorsedChain
