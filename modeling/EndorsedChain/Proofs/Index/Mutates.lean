import EndorsedChain.Index.Add
import EndorsedChain.Proofs.Journal.Undo

/-!
# What a mutation does to a store

A successful mutation attaches proofs, or stores a new header, attaches its proof to keystones, and
possibly moves the head to it.  `Mutates` lists these cases with what the checks have found, and
`outcome_addEdits` and `outcome_proveEdits` show that there are no others.  A mutation that is
refused leaves the index as it was.
-/

namespace EndorsedChain

open VeriBlock

variable {known : Set Header} {s t : Store Entry VBlake} {edits : List Edit}

/-! ## Indexes that do not speculate -/

namespace Index

variable {i j : Index} {hash : VBlake}

theorem overlay_of_idle (hidle : i.isSpeculating = false) : i.mode.overlay = .empty := by
  unfold isSpeculating at hidle
  cases hmode : i.mode with
  | idle => rfl
  | speculating overlay =>
    rw [hmode] at hidle
    obtain ⟨entries, head⟩ := overlay
    simp only [Mode.isSpeculating, Overlay.isEmpty, Bool.not_eq_false', Bool.and_eq_true,
      List.isEmpty_iff, Option.isNone_iff_eq_none] at hidle
    obtain ⟨rfl, rfl⟩ := hidle
    rfl

theorem lookup_of_idle (hidle : i.isSpeculating = false) (hash : VBlake) :
    i.lookup hash = i.store.get hash := by
  rw [lookup, overlay_of_idle hidle, Overlay.get_empty, Option.none_or]

theorem lookup_of_checkConnectivity {h : Header} {p : Entry}
    (hconn : i.checkConnectivity h = .ok p) : i.lookup h.previousBlock = some p := by
  unfold checkConnectivity at hconn
  split at hconn
  · cases hconn
  · rename_i q hq
    split at hconn
    · cases hconn
    · split at hconn
      · cases hconn
      · cases hconn
        exact hq

/-- An admitted header is valid.  Unless the index had no head, the header is new and the header
before it is known. -/
theorem accept_eq_ok_some {head : Option Entry} {h : Header} {proof : Digest} {a : Admission}
    (haccept : i.accept head h proof = .ok (some a)) :
    ∃ work, h.work = .ok work ∧
      (head = none ∧ a = ⟨⟨h, work, proof⟩, none⟩ ∨
        head.isSome = true ∧ i.lookup h.hash = none ∧
          ∃ p, i.lookup h.previousBlock = some p ∧
            a = ⟨⟨h, p.work + work, proof⟩, some p.hash⟩) := by
  unfold accept at haccept
  cases hwork : h.work with
  | error e => rw [hwork] at haccept; cases haccept
  | ok work =>
    rw [hwork] at haccept
    refine ⟨work, rfl, ?_⟩
    cases head with
    | none => cases haccept; exact .inl ⟨rfl, rfl⟩
    | some head =>
      refine .inr ⟨rfl, ?_⟩
      cases hlookup : i.lookup h.hash with
      | some e =>
        simp only [hlookup, Option.isSome_some, if_true] at haccept
        cases haccept
      | none =>
        refine ⟨rfl, ?_⟩
        simp only [hlookup, Option.isSome_none, Bool.false_eq_true, if_false] at haccept
        cases hconn : i.checkConnectivity h with
        | error e => rw [hconn] at haccept; cases haccept
        | ok p =>
          rw [hconn] at haccept
          cases hcontext : i.checkContext h with
          | error e => rw [hcontext] at haccept; cases haccept
          | ok _ =>
            rw [hcontext] at haccept
            cases haccept
            exact ⟨p, lookup_of_checkConnectivity hconn, rfl⟩

theorem addEdits_of_accept {h : Header} {proof : Digest} {a : Admission}
    (hidle : i.isSpeculating = false) (haccept : i.accept i.store.head h proof = .ok (some a)) :
    i.addEdits h proof = i.commit a := by
  rw [addEdits, hidle, if_neg Bool.false_ne_true, haccept]

/-- A header that is added is refused, or known already, or admitted and stored. -/
theorem addEdits_cases (i : Index) (h : Header) (proof : Digest) :
    (∃ e, i.addEdits h proof = (i, .error e)) ∨ i.addEdits h proof = (i, .ok []) ∨
      ∃ a, i.isSpeculating = false ∧ i.accept i.store.head h proof = .ok (some a) ∧
        i.addEdits h proof = i.commit a := by
  cases hidle : i.isSpeculating with
  | true => exact .inl ⟨_, if_pos hidle⟩
  | false =>
    cases haccept : i.accept i.store.head h proof with
    | error e =>
      refine .inl ⟨e, ?_⟩
      rw [addEdits, hidle, if_neg Bool.false_ne_true, haccept]
    | ok admission =>
      cases admission with
      | none =>
        refine .inr (.inl ?_)
        rw [addEdits, hidle, if_neg Bool.false_ne_true, haccept]
      | some a => exact .inr (.inr ⟨a, rfl, rfl, addEdits_of_accept hidle haccept⟩)

theorem addAll_of_idle (hidle : i.isSpeculating = false) (hs : List Header) :
    i.addAll hs = i.addEach (hs.mergeSort fun a b => decide (a.height ≤ b.height)) := by
  rw [addAll, hidle, if_neg Bool.false_ne_true]

end Index

/-! ## Proofs -/

/-- The entry to which a proof is attached, if it is attached to what was found. -/
def provable? (bitcoin : Store Bitcoin.Entry Digest) (proof : Digest) (found : Option Entry) :
    Option Entry :=
  if proof.isZero then none else found.filter fun e ↦ isBetterProof bitcoin e proof

theorem provable?_eq_some_iff {bitcoin : Store Bitcoin.Entry Digest} {proof : Digest}
    {found : Option Entry} {e : Entry} :
    provable? bitcoin proof found = some e ↔
      proof.isZero = false ∧ found = some e ∧ isBetterProof bitcoin e proof = true := by
  unfold provable?
  cases proof.isZero with
  | true => simp
  | false => simp [Option.filter_eq_some_iff]

theorem mem_of_provable? {bitcoin : Store Bitcoin.Entry Digest} {proof : Digest}
    {found : Option Entry} {e : Entry} (h : provable? bitcoin proof found = some e) :
    found = some e :=
  (provable?_eq_some_iff.mp h).2.1

theorem attach_eq (hs : s.Keyed) (bitcoin : Store Bitcoin.Entry Digest) (proof : Digest)
    (hash : VBlake) :
    attach bitcoin proof s hash =
      match provable? bitcoin proof (s.get hash) with
      | none => (s, [])
      | some e => ((Edit.setProof e { e with proof }).apply s, [.setProof e { e with proof }]) := by
  unfold attach provable?
  split
  · rfl
  · cases hget : s.get hash with
    | none => rfl
    | some e =>
      simp only [Option.filter_some]
      split
      · have hmem : e ∈ s.blocks := Store.get_mem hs hget
        have hremove : s.remove e.hash = (some e, (s.remove e.hash).2) :=
          Prod.ext (Store.get_hash hs hmem) rfl
        rw [hremove]
        rfl
      · rfl

/-- A stored hash stays stored, in any store whatsoever: the entry that is taken out to attach a
proof to it is put back. -/
theorem mem_ids_attach (bitcoin : Store Bitcoin.Entry Digest) (proof : Digest) {e : Entry}
    (he : e.hash ∈ (s.bucket e.hash.storeKey).map Entry.hash) (hash : VBlake) :
    e.hash ∈ ((attach bitcoin proof s hash).1.bucket e.hash.storeKey).map Entry.hash := by
  unfold attach
  split
  · exact he
  · split
    · exact he
    · rename_i x _
      split
      · rw [Store.remove]
        dsimp only
        split
        · exact he
        · rename_i prior rest hremove
          obtain ⟨-, rfl⟩ := Prod.mk.inj hremove
          cases hagrees : x.hash.agrees e.hash with
          | true =>
            -- full hashes agree only if they are the same
            have hid : x.hash = e.hash := Entry.hash_agrees_iff.mp hagrees
            rw [← hid]
            exact Store.mem_ids_bucket_put_self (s.remove x.hash).2 { x with proof }
          | false =>
            exact Store.mem_ids_bucket_put _ _ (Store.mem_ids_bucket_remove s he hagrees)
      · exact he

theorem mem_ids_attachAll (bitcoin : Store Bitcoin.Entry Digest) (proof : Digest) {e : Entry}
    (he : e.hash ∈ (s.bucket e.hash.storeKey).map Entry.hash) (hashes : List VBlake) :
    e.hash ∈ ((attachAll bitcoin proof s hashes).1.bucket e.hash.storeKey).map Entry.hash := by
  induction hashes generalizing s with
  | nil => exact he
  | cons hash hashes ih => exact ih (mem_ids_attach bitcoin proof he hash)

theorem keyed_attach (hs : s.Keyed) (bitcoin : Store Bitcoin.Entry Digest) (proof : Digest)
    (hash : VBlake) : (attach bitcoin proof s hash).1.Keyed := by
  rw [attach_eq hs]
  split
  · exact hs
  · exact (hs.remove _).put _

/-- Runs of edits that attach proofs to stored entries. -/
inductive Proves : Store Entry VBlake → List Edit → Store Entry VBlake → Prop
  | nil (s : Store Entry VBlake) : Proves s [] s
  | cons {s t : Store Entry VBlake} {prior : Entry} {proof : Digest} {edits : List Edit}
    (hprior : prior ∈ s.blocks)
    (hedits : Proves ((Edit.setProof prior { prior with proof }).apply s) edits t) :
    Proves s (.setProof prior { prior with proof } :: edits) t

namespace Proves

theorem journals (h : Proves s edits t) : Journals known s edits t := by
  induction h with
  | nil s => exact .nil s
  | cons hprior _ ih => exact .cons (.setProof hprior _) ih

theorem keyed (hs : s.Keyed) (h : Proves s edits t) : t.Keyed := by
  induction h with
  | nil => exact hs
  | cons _ _ ih => exact ih (Edit.apply_keyed hs _)

theorem headId (h : Proves s edits t) : t.headId = s.headId := by
  induction h with
  | nil => rfl
  | cons _ _ ih => exact ih

/-- What each attached proof preserves is preserved. -/
theorem preserves {P : Store Entry VBlake → Prop}
    (hP : ∀ {s : Store Entry VBlake} {prior : Entry} (proof : Digest), s.Holds known →
      prior ∈ s.blocks → P s → P ((Edit.setProof prior { prior with proof }).apply s))
    (h : Proves s edits t) (hs : s.Holds known) (hPs : P s) : P t := by
  induction h with
  | nil => exact hPs
  | @cons s t prior proof edits hprior _ ih =>
    exact ih ((hs.remove _).put (hs.mem_known prior hprior)) (hP proof hs hprior hPs)

end Proves

theorem proves_attachAll (bitcoin : Store Bitcoin.Entry Digest) (proof : Digest) (hs : s.Keyed)
    (hashes : List VBlake) :
    Proves s (attachAll bitcoin proof s hashes).2 (attachAll bitcoin proof s hashes).1 := by
  induction hashes generalizing s with
  | nil => exact .nil s
  | cons hash hashes ih =>
    unfold attachAll
    rw [attach_eq hs]
    cases hprovable : provable? bitcoin proof (s.get hash) with
    | none => exact ih hs
    | some e =>
      have he : e ∈ s.blocks := Store.get_mem hs (mem_of_provable? hprovable)
      exact .cons he (ih ((hs.remove _).put _))

/-! ## Mutations -/

namespace Store

/-- A sound store that has a head unless it is empty. -/
structure Headed (known : Set Header) (s : Store Entry VBlake) : Prop extends s.Sound known where
  empty_of_no_head : s.headId = none → s.blocks = []

theorem Headed.empty : (Store.empty : Store Entry VBlake).Headed known where
  toSound := Sound.empty
  empty_of_no_head _ := rfl

theorem Headed.blocks_eq_nil_iff (hs : s.Headed known) : s.blocks = [] ↔ s.head = none := by
  rw [hs.head_eq_none_iff]
  refine ⟨?_, hs.empty_of_no_head⟩
  intro hnil
  apply Option.eq_none_iff_forall_ne_some.mpr
  intro id hid
  obtain ⟨e, he, -⟩ := hs.head_stored id hid
  exact List.not_mem_nil (hnil ▸ he)

theorem Headed.of_same (hs : s.Headed known) (ht : t.Keyed) (h : Same t s) : t.Headed known where
  toSound := hs.toSound.of_same ht h
  empty_of_no_head hid := by
    have hnil := hs.empty_of_no_head (h.headId ▸ hid)
    exact List.eq_nil_iff_forall_not_mem.mpr fun e he ↦
      List.not_mem_nil (hnil ▸ h.mem_iff.mp he)

end Store

/-- How a new entry is tied to a store: as the first one, or by the entry before it. -/
inductive Admits (s : Store Entry VBlake) (e : Entry) : Prop
  | first (hhead : s.headId = none) (hempty : s.blocks = []) (hwork : e.header.work = .ok e.work)
  | next {p : Entry} {work : Nat} (hhead : s.headId ≠ none)
    (hprevious : s.get e.header.previousBlock = some p) (hheader : e.header.work = .ok work)
    (hwork : e.work = p.work + work)

/-- What a successful mutation journals, and which store it leads to. -/
inductive Mutates (known : Set Header) (s : Store Entry VBlake) :
    List Edit → Store Entry VBlake → Prop
  | prove {edits : List Edit} {t : Store Entry VBlake} (hedits : Proves s edits t) :
    Mutates known s edits t
  /-- An entry that comes right after the head would become the head. -/
  | store {e : Entry} {edits : List Edit} {t : Store Entry VBlake}
    (hfits : (Edit.addBlock e).Fits known s) (hadmits : Admits s e) (hhead : s.headId ≠ none)
    (hstays : ∀ p, s.get e.header.previousBlock = some p → s.headId ≠ some p.hash)
    (hedits : Proves (s.put e) edits t) : Mutates known s (.addBlock e :: edits) t
  | promote {e : Entry} {edits : List Edit} {t : Store Entry VBlake}
    (hfits : (Edit.addBlock e).Fits known s) (hadmits : Admits s e)
    (hedits : Proves (s.put e) edits t) :
    Mutates known s (.addBlock e :: edits ++ [.setHead t.head e]) { t with headId := some e.hash }

theorem Admits.work_ok {e : Entry} (h : Admits s e) : ∃ work, e.header.work = .ok work := by
  cases h with
  | first _ _ hwork => exact ⟨_, hwork⟩
  | next _ _ hheader => exact ⟨_, hheader⟩

theorem Proves.keeps (hk : KeysDistinct known) (hs : s.Holds known) (h : Proves s edits t) :
    Store.Keeps s t :=
  h.preserves (P := Store.Keeps s)
    (fun _ hs hprior hkeeps ↦ hkeeps.trans (Store.keeps_replace hk hs hprior ⟨rfl, rfl⟩)) hs
    (.refl s)

/-- What is stored is still stored after proofs were attached. -/
theorem Proves.mem_alike (hs : s.Keyed) (h : Proves s edits t) {e : Entry} (he : e ∈ s.blocks) :
    ∃ x ∈ t.blocks, e.Alike x := by
  induction h generalizing e with
  | nil => exact ⟨e, he, .refl e⟩
  | @cons s t prior proof edits hprior _ ih =>
    have hkeyed := Edit.apply_keyed hs (.setProof prior { prior with proof })
    by_cases heq : e = prior
    · subst heq
      obtain ⟨x, hx, halike⟩ := ih hkeyed ((Edit.mem_setProof hs hprior proof).mpr (.inl rfl))
      exact ⟨x, hx, halike.header, halike.work⟩
    · exact ih hkeyed ((Edit.mem_setProof hs hprior proof).mpr (.inr ⟨he, heq⟩))

/-- A new entry is found after proofs were attached. -/
theorem Proves.get_new (hs : s.Keyed) {e : Entry} (h : Proves (s.put e) edits t) :
    ∃ x ∈ t.blocks, t.get e.hash = some x ∧ e.Alike x := by
  obtain ⟨x, hx, halike⟩ := h.mem_alike (hs.put e) ((Store.mem_blocks_put hs).mpr (.inl rfl))
  have hhash : e.hash = x.hash := congrArg Header.hash halike.header
  exact ⟨x, hx, by rw [hhash, Store.get_hash (h.keyed (hs.put e)) hx], halike⟩

namespace Mutates

theorem journals (hs : s.Sound known) (h : Mutates known s edits t) :
    Journals known s edits t := by
  cases h with
  | prove hedits => exact hedits.journals
  | store hfits _ _ _ hedits => exact .cons hfits hedits.journals
  | promote hfits _ hedits =>
    obtain ⟨x, hx, -, halike⟩ := hedits.get_new hs.keyed
    have hhash : x.hash = _ := congrArg Header.hash halike.header.symm
    exact (Journals.cons hfits hedits.journals).append (.single (.setHead hx hhash))

theorem headed (hs : s.Headed known) (h : Mutates known s edits t) : t.Headed known := by
  refine ⟨(h.journals hs.toSound).sound hs.toSound, ?_⟩
  intro hhead
  cases h with
  | prove hedits =>
    have hnil := hs.empty_of_no_head (hedits.headId ▸ hhead)
    cases hedits with
    | nil => exact hnil
    | cons hprior => exact absurd hprior (hnil ▸ List.not_mem_nil)
  | store _ _ hne _ hedits => exact absurd (hedits.headId ▸ hhead) hne
  | promote => cases hhead

end Mutates

namespace Index

variable {i j : Index} {h : Header} {proof : Digest}

/-- An admitted header is new to a store that has a head unless it is empty. -/
theorem admits_of_accept (hidle : i.isSpeculating = false)
    (hs : i.store.Headed known) (hh : h ∈ known) {a : Admission}
    (haccept : i.accept i.store.head h proof = .ok (some a)) :
    (Edit.addBlock a.entry).Fits known i.store ∧ Admits i.store a.entry := by
  have hhead := hs.toSound.head_eq_none_iff
  obtain ⟨work, hwork, ⟨hnone, rfl⟩ | ⟨hsome, hnew, p, hprevious, rfl⟩⟩ :=
    accept_eq_ok_some haccept
  · have hempty := hs.empty_of_no_head (hhead.mp hnone)
    refine ⟨.addBlock hh ⟨work, hwork⟩ fun e he ↦ ?_, .first (hhead.mp hnone) hempty hwork⟩
    exact absurd he (hempty ▸ List.not_mem_nil)
  · rw [lookup_of_idle hidle] at hnew hprevious
    have hne : i.store.headId ≠ none := fun hid ↦ by
      rw [hhead.mpr hid] at hsome
      cases hsome
    exact ⟨.addBlock hh ⟨work, hwork⟩ ((Store.get_hash_eq_none_iff hs.keyed).mp hnew),
      .next hne hprevious hwork rfl⟩

/-- An admitted header comes with the hash of the stored header before it. -/
theorem parent_of_accept (hidle : i.isSpeculating = false) (hs : i.store.Headed known)
    {a : Admission} (haccept : i.accept i.store.head h proof = .ok (some a)) {p : Entry}
    (hp : i.store.get a.entry.header.previousBlock = some p) : a.parent? = some p.hash := by
  obtain ⟨work, -, ⟨hnone, rfl⟩ | ⟨-, -, q, hq, rfl⟩⟩ := accept_eq_ok_some haccept
  · have hmem := Store.get_mem hs.keyed hp
    rw [hs.empty_of_no_head (hs.head_eq_none_iff.mp hnone)] at hmem
    cases hmem
  · rw [lookup_of_idle hidle] at hq
    rw [Option.some.inj (hp.symm.trans hq)]

/-- The store with an admitted header and its proof, before the head is moved, and the edits. -/
def attachAdmitted (i : Index) (a : Admission) : Store Entry VBlake × List Edit :=
  attachAll i.bitcoin a.entry.proof (i.store.put a.entry) a.entry.header.provenKeystones

theorem proves_attachAdmitted (hs : i.store.Keyed) (a : Admission) :
    Proves (i.store.put a.entry) (i.attachAdmitted a).2 (i.attachAdmitted a).1 :=
  proves_attachAll i.bitcoin a.entry.proof (hs.put a.entry) _

theorem contains_attachAdmitted (i : Index) (a : Admission) :
    (i.attachAdmitted a).1.contains a.entry.hash = true :=
  Store.contains_of_mem_ids
    (mem_ids_attachAll i.bitcoin a.entry.proof (Store.mem_ids_bucket_put_self i.store a.entry) _)

/-- An admitted header is always stored, so that it can become the head. -/
theorem commit_eq (i : Index) (a : Admission) :
    i.commit a =
      if ({ i with store := (i.attachAdmitted a).1 } : Index).promotes
          (i.attachAdmitted a).1.head a then
        ({ i with store := { (i.attachAdmitted a).1 with headId := some a.entry.hash } },
          .ok (.addBlock a.entry :: (i.attachAdmitted a).2
            ++ [.setHead (i.attachAdmitted a).1.head a.entry]))
      else
        ({ i with store := (i.attachAdmitted a).1 },
          .ok (.addBlock a.entry :: (i.attachAdmitted a).2)) := by
  have hset : (i.attachAdmitted a).1.setHead a.entry = .ok ((i.attachAdmitted a).1.head,
      { (i.attachAdmitted a).1 with headId := some a.entry.hash }) :=
    if_pos (i.contains_attachAdmitted a)
  have hattach : attachAll i.bitcoin a.entry.proof (i.store.put a.entry)
      a.entry.header.provenKeystones = ((i.attachAdmitted a).1, (i.attachAdmitted a).2) := rfl
  simp only [commit, hattach, hset]

/-- If the stored header before an admitted one is the head, it still is when the proof has been
attached. -/
theorem promotes_of_parent (hs : i.store.Headed known) {a : Admission}
    (hfits : (Edit.addBlock a.entry).Fits known i.store) {p : Entry}
    (hp : p ∈ i.store.blocks) (hparent : a.parent? = some p.hash)
    (hid : i.store.headId = some p.hash) (j : Index) :
    j.promotes (i.attachAdmitted a).1.head a = true := by
  have hproves := proves_attachAdmitted hs.keyed a
  have hsound := hproves.journals.sound (hfits.apply_sound hs.toSound)
  cases hfits with
  | addBlock _ _ hfresh =>
    obtain ⟨x, hx, halike⟩ := hproves.mem_alike (hs.keyed.put a.entry)
      ((Store.mem_blocks_put hs.keyed).mpr (.inr ⟨hp, hfresh p hp⟩))
    have hhash : p.hash = x.hash := congrArg Header.hash halike.header
    have hhead : (i.attachAdmitted a).1.head = some x :=
      hsound.head_eq_some_iff.mpr ⟨hx, hproves.headId.trans (hid.trans (congrArg some hhash))⟩
    rw [hhead, promotes, hparent, hhash, decide_eq_true rfl, Bool.true_or]

theorem mutates_of_commit (hs : i.store.Headed known) {a : Admission}
    (hfits : (Edit.addBlock a.entry).Fits known i.store) (hadmits : Admits i.store a.entry)
    (hparent : ∀ p, i.store.get a.entry.header.previousBlock = some p → a.parent? = some p.hash) :
    ∃ t edits, i.commit a = ({ i with store := t }, .ok edits) ∧ Mutates known i.store edits t := by
  have hproves := proves_attachAdmitted hs.keyed a
  rw [commit_eq]
  split
  · exact ⟨_, _, rfl, .promote hfits hadmits hproves⟩
  · rename_i hpromotes
    refine ⟨_, _, rfl, .store hfits hadmits (fun hid ↦ hpromotes ?_)
      (fun p hp hid ↦ hpromotes ?_) hproves⟩
    · have hsound := hproves.journals.sound (hfits.apply_sound hs.toSound)
      rw [hsound.head_eq_none_iff.mpr (hproves.headId.trans hid)]
      rfl
    · exact promotes_of_parent hs hfits (Store.get_mem hs.keyed hp) (hparent p hp) hid _

/-- What comes of a mutation: it is refused and changes nothing, or it is carried out. -/
inductive Outcome (known : Set Header) (i : Index) : Index × Except Error (List Edit) → Prop
  | refused (e : Error) : Outcome known i (i, .error e)
  | carriedOut {edits : List Edit} {t : Store Entry VBlake}
    (hmutates : Mutates known i.store edits t) :
    Outcome known i ({ i with store := t }, .ok edits)

theorem outcome_addEdits (hs : i.store.Headed known) (hh : h ∈ known) (proof : Digest) :
    Outcome known i (i.addEdits h proof) := by
  rcases i.addEdits_cases h proof with ⟨e, hadd⟩ | hadd | ⟨a, hidle, haccept, hadd⟩
  · rw [hadd]
    exact .refused e
  · rw [hadd]
    exact .carriedOut (.prove (.nil _))
  · obtain ⟨hfits, hadmits⟩ := admits_of_accept hidle hs hh haccept
    obtain ⟨t, edits, hcommit, hmutates⟩ := mutates_of_commit hs hfits hadmits
      fun p hp ↦ parent_of_accept hidle hs haccept hp
    rw [hadd, hcommit]
    exact .carriedOut hmutates

theorem outcome_proveEdits (hs : i.store.Headed known) (h : Header) (proof : Digest) :
    Outcome known i (i.proveEdits h proof) := by
  unfold proveEdits
  cases i.isSpeculating with
  | true => exact .refused _
  | false =>
    exact .carriedOut (.prove (proves_attachAll i.bitcoin proof hs.keyed h.proofTargets))

end Index

end EndorsedChain
