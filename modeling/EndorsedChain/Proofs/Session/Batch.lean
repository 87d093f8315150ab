import EndorsedChain.Proofs.Sample.Openings
import EndorsedChain.Proofs.Session.Rewind

/-!
# Undoing a batch

A batch adds its headers one by one.  If all of them are added, what is returned undoes the batch.
If one of them fails, the headers before it stay, but the error comes without the changes they made.
Those changes would undo the batch; the caller, who has nothing to rewind, is where it was before
only if all headers before the one that fails were stored already (`failure_of_addEach`).

The journal of a session backs its store, and lost changes do too (`backed_proceed`): so all this
holds again after batches that failed.
-/

namespace EndorsedChain

open VeriBlock

variable {known : Set Header}

/-- Nothing that is asked of the one store is answered otherwise by the other one. -/
structure Store.Agrees (s t : Store Entry VBlake) : Prop where
  bucket : s.bucket = t.bucket
  size : s.size = t.size
  headId : s.headId = t.headId
  get : ∀ hash, s.get hash = t.get hash
  head : s.head = t.head

theorem Store.Same.agrees {s t : Store Entry VBlake} (hk : KeysDistinct known)
    (hs : s.Holds known) (ht : t.Holds known) (h : Store.Same s t) : s.Agrees t :=
  ⟨h.bucket hk hs ht, h.size, h.headId, h.get hk hs ht, h.head hk hs ht⟩

namespace Index

variable {i j : Index} {h : Header} {hs : List Header} {changes : List Change}

/-- The headers of a batch as they are added. -/
def inOrder (hs : List Header) : List Header :=
  hs.mergeSort fun a b ↦ decide (a.height ≤ b.height)

theorem inOrder_of_pairwise (h : hs.Pairwise fun a b ↦ a.height ≤ b.height) : inOrder hs = hs :=
  List.mergeSort_of_pairwise (h.imp decide_eq_true)

theorem addAll_of_pairwise (hidle : i.isSpeculating = false)
    (h : hs.Pairwise fun a b ↦ a.height ≤ b.height) : i.addAll hs = i.addEach hs := by
  rw [addAll_of_idle hidle]
  exact congrArg i.addEach (inOrder_of_pairwise h)

/-- A header that is added was known and changes nothing, or is stored under a hash that was not. -/
theorem add_eq_ok (hheaded : i.store.Headed known) (hh : h ∈ known)
    (hadd : i.add h .zero = (j, .ok changes)) :
    j = i ∧ changes = [] ∨ ∃ e ∈ j.store.blocks, i.store.get e.hash = none := by
  have hpair : i.add h .zero = ((i.addEdits h .zero).1, Index.journal (i.addEdits h .zero).2) := rfl
  rw [hpair] at hadd
  obtain ⟨hindex, hjournal⟩ := Prod.mk.inj hadd
  rcases i.addEdits_cases h .zero with ⟨e, hcase⟩ | hcase | ⟨a, hidle, haccept, hcase⟩
  · rw [hcase] at hjournal
    cases hjournal
  · rw [hcase] at hindex hjournal
    cases hjournal
    exact .inl ⟨hindex.symm, rfl⟩
  · obtain ⟨hfits, -⟩ := admits_of_accept hidle hheaded hh haccept
    obtain ⟨e, he, -, halike⟩ :=
      (proves_attachAdmitted hheaded.keyed a).get_new hheaded.keyed
    have hblocks : (i.commit a).1.store.blocks = (i.attachAdmitted a).1.blocks := by
      rw [commit_eq]
      split <;> rfl
    rw [hcase] at hindex
    have hhash : e.hash = a.entry.hash := congrArg Header.hash halike.header.symm
    cases hfits with
    | addBlock _ _ hfresh =>
      refine .inr ⟨e, ?_, ?_⟩
      · rw [← hindex, hblocks]
        exact he
      · rw [hhash]
        exact (Store.get_hash_eq_none_iff hheaded.keyed).mpr hfresh

/-- Headers that fail have stored something, unless all before the first that fails were known. -/
theorem failure_of_addEach {e : Error} (hheaded : i.store.Headed known)
    (hmem : ∀ h ∈ hs, h ∈ known) (hadd : i.addEach hs = (j, .error (.rejected e))) :
    (∃ before h after, hs = before ++ h :: after ∧ (∀ x ∈ before, i.add x .zero = (i, .ok [])) ∧
      i.add h .zero = (i, .error (.rejected e))) ∨
      ∃ x ∈ j.store.blocks, i.store.get x.hash = none := by
  induction hs generalizing i with
  | nil => cases hadd
  | cons h hs ih =>
    have hfirst := hmem h List.mem_cons_self
    have hrest : ∀ h ∈ hs, h ∈ known := fun x hx ↦ hmem x (List.mem_cons_of_mem h hx)
    have houtcome := outcome_addEdits hheaded hfirst .zero
    rw [addEach] at hadd
    rcases hresult : i.add h .zero with ⟨k, f | cs⟩
    · rw [hresult] at hadd
      cases hadd
      have hsame : j = i := by
        rw [← houtcome.of_rejected (Prod.mk.inj hresult).2]
        exact (Prod.mk.inj hresult).1.symm
      exact .inl ⟨[], h, hs, rfl, fun _ hx ↦ absurd hx List.not_mem_nil, hsame ▸ hresult⟩
    · rw [hresult] at hadd
      rcases hothers : k.addEach hs with ⟨l, g | ds⟩
      · simp only [hothers] at hadd
        cases hadd
        rcases add_eq_ok hheaded hfirst hresult with ⟨rfl, rfl⟩ | ⟨x, hx, hnew⟩
        · rcases ih hheaded hrest hothers with ⟨before, h', after, rfl, hknown, hfails⟩ | hstored
          · exact .inl ⟨h :: before, h', after, rfl,
              List.forall_mem_cons.mpr ⟨hresult, hknown⟩, hfails⟩
          · exact .inr hstored
        · -- what was stored stays, whatever comes after it
          obtain ⟨t, edits, hindex, hmutates, -⟩ := houtcome.of_ok (Prod.mk.inj hresult).2
          have hk : k = { i with store := t } := (Prod.mk.inj hresult).1.symm.trans hindex
          subst hk
          have hkheaded := hmutates.headed hheaded
          obtain ⟨u, more, rfl, hmore, -⟩ := mutations_of_made hkheaded hrest hothers (by simp)
          obtain ⟨y, hy, hheader⟩ := (hmore.journals hkheaded).header_mem hkheaded.keyed hx
          refine .inr ⟨y, hy, ?_⟩
          rw [show y.hash = x.hash from congrArg Header.hash hheader]
          exact hnew
      · simp only [hothers] at hadd
        cases hadd

/-- Known headers are passed over, up to one that fails. -/
theorem addEach_of_known {before after : List Header} {f : Fault}
    (hknown : ∀ x ∈ before, i.add x .zero = (i, .ok [])) (hfails : i.add h .zero = (i, .error f)) :
    i.addEach (before ++ h :: after) = (i, .error f) := by
  induction before with
  | nil => rw [List.nil_append, addEach, hfails]
  | cons x before ih =>
    rw [List.forall_mem_cons] at hknown
    rw [List.cons_append, addEach, hknown.1]
    simp only [ih hknown.2]
    rfl

theorem mutations_of_batch {result : Except Fault (List Change)} (hheaded : i.store.Headed known)
    (hmem : ∀ h ∈ hs, h ∈ known) (hidle : i.isSpeculating = false)
    (hadd : i.addAll hs = (j, result)) (hresult : result ≠ .error .workTooWide) :
    ∃ t edits, j = { i with store := t } ∧ Mutations known i.store edits t ∧
      edits.mapM Edit.toChange? = some (i.made (inOrder hs)) := by
  rw [addAll_of_idle hidle] at hadd
  exact mutations_of_made hheaded (fun h hh ↦ hmem h (List.mem_mergeSort.mp hh)) hadd hresult

/-- What a batch has done is undone by its changes, whether it failed or not. -/
theorem rewind_made {result : Except Fault (List Change)} (hk : KeysDistinct known)
    (hheaded : i.store.Headed known) (hmem : ∀ h ∈ hs, h ∈ known) (hidle : i.isSpeculating = false)
    (hadd : i.addAll hs = (j, result)) (hresult : result ≠ .error .workTooWide) :
    ∃ k, j.rewind (i.made (inOrder hs)) = (k, .ok ()) ∧ k.store.Agrees i.store := by
  obtain ⟨t, edits, rfl, hmutations, hchanges⟩ :=
    mutations_of_batch hheaded hmem hidle hadd hresult
  obtain ⟨u, hundo, hu, hsame⟩ := (hmutations.journals hheaded).undoEach hheaded.toSound hchanges
    (hmutations.headed hheaded).keyed (Store.Same.refl _)
  refine ⟨{ i with store := u }, ?_,
    hsame.agrees hk (hheaded.toHolds.of_same hu hsame) hheaded.toHolds⟩
  have hspeculating : ({ i with store := t } : Index).isSpeculating = false := hidle
  rw [rewind, hspeculating, hundo]
  rfl

/-- A failed batch is undone by nothing at all exactly if it has only passed over known headers. -/
theorem agrees_of_failed_iff {e : Error} (hheaded : i.store.Headed known)
    (hmem : ∀ h ∈ hs, h ∈ known) (hidle : i.isSpeculating = false)
    (hadd : i.addAll hs = (j, .error (.rejected e))) :
    j.store.Agrees i.store ↔ ∃ before h after, inOrder hs = before ++ h :: after ∧
      (∀ x ∈ before, i.add x .zero = (i, .ok [])) ∧ i.add h .zero = (i, .error (.rejected e)) := by
  have hsorted : ∀ h ∈ inOrder hs, h ∈ known := fun h hh ↦ hmem h (List.mem_mergeSort.mp hh)
  have heach : i.addEach (inOrder hs) = (j, .error (.rejected e)) := by
    rw [← hadd, addAll_of_idle hidle]
    rfl
  constructor
  · intro hagrees
    refine (failure_of_addEach hheaded hsorted heach).resolve_right ?_
    rintro ⟨x, hx, hnew⟩
    obtain ⟨t, edits, rfl, hmutations, -⟩ := mutations_of_batch hheaded hmem hidle hadd (by simp)
    rw [← hagrees.get, Store.get_hash (hmutations.headed hheaded).keyed hx] at hnew
    cases hnew
  · rintro ⟨before, h, after, horder, hknown, hfails⟩
    rw [horder, addEach_of_known hknown hfails] at heach
    obtain ⟨rfl, -⟩ := Prod.mk.inj heach
    exact ⟨rfl, rfl, rfl, fun _ ↦ rfl, rfl⟩

end Index

namespace Session

variable {s t : Session} {c : Call} {calls : List Call}

/-- A call of a holder who goes on after a batch that failed midway.  If headers were stored,
nothing that was done up to then is rewound any more: what came last is not known. -/
def proceed (s : Session) (c : Call) : Option Session :=
  match s.call c, c with
  | some r, _ => some r.session
  | none, .addAll hs =>
    match s.index.addAll hs with
    | (index, .error (.rejected _)) =>
      some ⟨index, if index.store = s.index.store then s.journal else []⟩
    | _ => none
  | none, _ => none

def proceedAll (s : Session) : List Call → Option Session
  | [] => some s
  | c :: cs => (s.proceed c).bind (·.proceedAll cs)

theorem proceed_of_failed {hs : List Header} {j : Index} {e : Index.Error}
    (hadd : s.index.addAll hs = (j, .error (.rejected e))) :
    s.proceed (.addAll hs) =
      some ⟨j, if j.store = s.index.store then s.journal else []⟩ := by
  have hcall : s.call (.addAll hs) = none := by rw [call, hadd]
  simp only [proceed, hcall, hadd]

/-- The journal backs the store with the help of changes that are not in it. -/
theorem backed_proceed {older : List (List Change)}
    (hbacked : Backed known (s.journal ++ older) s.index.store)
    (hmem : ∀ h ∈ c.headers, h ∈ known) (hproceed : s.proceed c = some t) :
    ∃ older, Backed known (t.journal ++ older) t.index.store := by
  unfold proceed at hproceed
  split at hproceed
  · rename_i r hcall
    cases hproceed
    exact ⟨older, backed_call_append hbacked hmem hcall⟩
  · rename_i hs hcall
    split at hproceed
    · rename_i j e hadd
      cases hproceed
      dsimp only
      split
      · rename_i hsame
        exact ⟨older, hsame ▸ hbacked⟩
      · rename_i hdiffers
        have hidle : s.index.isSpeculating = false := by
          refine Bool.eq_false_iff.mpr fun hspeculating ↦ hdiffers ?_
          rw [Index.addAll, if_pos hspeculating] at hadd
          exact congrArg Index.store (Prod.mk.inj hadd).1.symm
        -- the changes that were lost back the store, too
        obtain ⟨u, edits, rfl, hmutations, hchanges⟩ :=
          Index.mutations_of_batch hbacked.headed hmem hidle hadd (by simp)
        exact ⟨s.index.made (Index.inOrder hs) :: (s.journal ++ older),
          .mutations hbacked hmutations hchanges (hmutations.headed hbacked.headed).keyed
            (Store.Same.refl _)⟩
    · cases hproceed
  · cases hproceed

theorem backed_proceedAll {older : List (List Change)}
    (hbacked : Backed known (s.journal ++ older) s.index.store)
    (hmem : ∀ h ∈ calls.flatMap Call.headers, h ∈ known) (hrun : s.proceedAll calls = some t) :
    ∃ older, Backed known (t.journal ++ older) t.index.store := by
  induction calls generalizing s older with
  | nil => cases hrun; exact ⟨older, hbacked⟩
  | cons c calls ih =>
    rw [proceedAll, Option.bind_eq_some_iff] at hrun
    obtain ⟨m, hproceed, hrun⟩ := hrun
    rw [List.flatMap_cons] at hmem
    obtain ⟨older, hm⟩ :=
      backed_proceed hbacked (fun h hh ↦ hmem h (List.mem_append_left _ hh)) hproceed
    exact ih hm (fun h hh ↦ hmem h (List.mem_append_right _ hh)) hrun

/-- If a batch succeeds, rewinding what it returned gives back the store of before.  If it fails,
the changes up to the failure would do so as well, but no changes are returned; then the store is
the one of before exactly if no header was added before the one that fails.  All this holds whatever
the session has been through, also batches that failed. -/
theorem batch_rewinds {params : NetworkParameters} {calls : List Call} {hs : List Header}
    (hkeys : KeysDistinct {h | h ∈ calls.flatMap Call.headers ++ hs})
    (hrun : (start params).proceedAll calls = some s) (hidle : s.index.isSpeculating = false) :
    (∀ j changes, s.index.addAll hs = (j, .ok changes) →
      ∃ k, j.rewind changes = (k, .ok ()) ∧ k.store.Agrees s.index.store) ∧
    ∀ j e, s.index.addAll hs = (j, .error (.rejected e)) →
      (∃ k, j.rewind (s.index.made (Index.inOrder hs)) = (k, .ok ()) ∧
        k.store.Agrees s.index.store) ∧
      j.rewind [] = (j, .ok ()) ∧
      (j.store.Agrees s.index.store ↔ ∃ before h after, Index.inOrder hs = before ++ h :: after ∧
        (∀ x ∈ before, s.index.add x .zero = (s.index, .ok [])) ∧
        s.index.add h .zero = (s.index, .error (.rejected e))) := by
  have hstart : Backed {h | h ∈ calls.flatMap Call.headers ++ hs}
      ((start params).journal ++ []) (start params).index.store := backed_start params
  obtain ⟨older, hbacked⟩ :=
    backed_proceedAll hstart (fun h hh ↦ List.mem_append_left _ hh) hrun
  have hheaded := hbacked.headed
  have hmem : ∀ h ∈ hs, h ∈ {h | h ∈ calls.flatMap Call.headers ++ hs} :=
    fun h hh ↦ List.mem_append_right _ hh
  refine ⟨fun j changes hadd ↦ ?_, fun j e hadd ↦ ⟨?_, ?_, ?_⟩⟩
  · have hmade : s.index.made (Index.inOrder hs) = changes := by
      rw [Index.addAll_of_idle hidle] at hadd
      exact Index.made_of_ok hadd
    rw [← hmade]
    exact Index.rewind_made hkeys hheaded hmem hidle hadd (by simp)
  · exact Index.rewind_made hkeys hheaded hmem hidle hadd (by simp)
  · obtain ⟨t, -, rfl, -⟩ := Index.mutations_of_batch hheaded hmem hidle hadd (by simp)
    have hspeculating : ({ s.index with store := t } : Index).isSpeculating = false := hidle
    rw [Index.rewind, hspeculating]
    rfl
  · exact Index.agrees_of_failed_iff hheaded hmem hidle hadd

open Sample

/-- The genesis and a header that does not fit right behind it. -/
def gapped : List Header := [genesis, third]

theorem addAll_gapped {i : Index} (hidle : i.isSpeculating = false)
    (hfails : (i.addEach gapped).2 = .error (.rejected (.verification
      (.blockDoesNotFit third.hash third.previousBlock)))) :
    i.addAll gapped = ((i.addEach gapped).1, .error (.rejected (.verification
      (.blockDoesNotFit third.hash third.previousBlock)))) := by
  rw [Index.addAll_of_pairwise hidle (by decide)]
  exact Prod.ext rfl hfails

/-- After a batch that failed midway, the next one is rewound, and the same one once more fails
without a trace. -/
theorem batches_after_failure : ∃ s, (start .testnet).proceedAll [.addAll gapped] = some s ∧
    (∃ j changes k, s.index.addAll [second, third] = (j, .ok changes) ∧
      j.rewind changes = (k, .ok ()) ∧ k.store.Agrees s.index.store) ∧
    ∃ j e, s.index.addAll gapped = (j, .error (.rejected e)) ∧ j.rewind [] = (j, .ok ()) ∧
      j.store.Agrees s.index.store := by
  have hfails := addAll_gapped (i := (start .testnet).index) rfl (by decide +kernel)
  have hidle : ((start .testnet).index.addEach gapped).1.isSpeculating = false := by
    decide +kernel
  have hrun : (start .testnet).proceedAll [.addAll gapped] =
      some ⟨((start .testnet).index.addEach gapped).1, []⟩ := by
    rw [proceedAll, proceed_of_failed hfails, show (start .testnet).journal = [] from rfl, ite_self]
    rfl
  refine ⟨_, hrun, ?_, ?_⟩
  · have hkeys : KeysDistinct {h | h ∈ [Call.addAll gapped].flatMap Call.headers ++
      [second, third]} := by decide +kernel
    obtain ⟨hrewinds, -⟩ := batch_rewinds hkeys hrun hidle
    have hadds : (((start .testnet).index.addEach gapped).1.addEach [second, third]).2.toBool =
        true := by decide +kernel
    rw [Index.addAll_of_pairwise hidle (by decide)] at hrewinds ⊢
    rcases hadd : ((start .testnet).index.addEach gapped).1.addEach [second, third]
      with ⟨j, f | changes⟩
    · rw [hadd] at hadds
      cases hadds
    · obtain ⟨k, hrewind, hagrees⟩ := hrewinds j changes hadd
      exact ⟨j, changes, k, rfl, hrewind, hagrees⟩
  · have hkeys : KeysDistinct {h | h ∈ [Call.addAll gapped].flatMap Call.headers ++ gapped} := by
      decide +kernel
    have hadd := addAll_gapped hidle (by decide +kernel)
    obtain ⟨-, hrewind, hagrees⟩ := (batch_rewinds hkeys hrun hidle).2 _ _ hadd
    refine ⟨_, _, hadd, hrewind, hagrees.mpr ⟨[genesis], third, [],
      Index.inOrder_of_pairwise (by decide), ?_, ?_⟩⟩
    · decide +kernel
    · decide +kernel

/-- The first of two headers is stored and becomes the head before the second one fails.  It stays
the head, as there is nothing to rewind. -/
theorem failed_batch_is_kept : KeysDistinct {h | h ∈ gapped} ∧
    (start .testnet).index.isSpeculating = false ∧
    ∃ j e, (start .testnet).index.addAll gapped = (j, .error (.rejected e)) ∧
      j.rewind [] = (j, .ok ()) ∧ j.store.headId = some genesis.hash ∧
      (start .testnet).index.store.headId = none := by
  refine ⟨by decide +kernel, rfl, _, _, addAll_gapped rfl (by decide +kernel), ?_, ?_, rfl⟩
  · decide +kernel
  · decide +kernel

end Session

end EndorsedChain
