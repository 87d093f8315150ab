import EndorsedChain.Proofs.Fork.Scoring
import EndorsedChain.Proofs.Index.Steady
import EndorsedChain.Proofs.Sample.Openings

/-!
# The work of the head

As long as no header is proven, no keystone scores and the fork choice comes down to work.  A header
that follows the head adds its own work, which is never zero.  So the head only ever gives way to
one with more work, within a call and from call to call.
-/

namespace EndorsedChain

open VeriBlock

/-! ## Fork choice without proofs -/

theorem totalScore_eq_zero {proofs : List (Option Nat)} (hnone : ∀ p ∈ proofs, p = none)
    (others : List (Option Nat)) : totalScore proofs others = 0 := by
  induction proofs generalizing others with
  | nil => rfl
  | cons p proofs ih =>
    rw [List.forall_mem_cons] at hnone
    rw [totalScore, hnone.1, ih hnone.2]
    rfl

namespace Index

variable {i j k : Index} {h : Header} {hs : List Header} {a : Admission} {head candidate : Entry}

/-- No header that can be looked up has a proof. -/
def Unproven (i : Index) : Prop := ∀ ref e, i.lookup ref = some e → e.hasProof = false

theorem unproven_of_idle (hidle : i.isSpeculating = false) (hs : i.store.Keyed)
    (hnone : ∀ e ∈ i.store.blocks, e.hasProof = false) : i.Unproven := by
  intro ref e hlookup
  rw [lookup_of_idle hidle] at hlookup
  exact hnone e (Store.get_mem hs hlookup)

theorem Unproven.countedProofs (hi : i.Unproven) (last : Option Nat) (keystones : List Entry) :
    ∀ p ∈ i.countedProofs last keystones, p = none := by
  induction keystones generalizing last with
  | nil => exact List.forall_mem_nil _
  | cons keystone rest ih =>
    have hnone : i.keystoneProof keystone last = none := by
      refine Option.eq_none_iff_forall_ne_some.mpr ?_
      intro height hheight
      obtain ⟨⟨e, hlookup, hproof, -⟩, -⟩ := keystoneProof_eq_some_iff.mp hheight
      rw [hi _ e hlookup] at hproof
      cases hproof
    exact List.forall_mem_cons.mpr ⟨hnone, ih _⟩

/-- Without proofs only the work decides. -/
theorem Unproven.prefers_iff (hi : i.Unproven) :
    i.prefers head candidate = true ↔ Outworks candidate head := by
  have hscore (keystones others : List Entry) : i.score keystones others = 0 :=
    totalScore_eq_zero (hi.countedProofs none keystones) _
  rw [prefers_eq_true_iff]
  constructor
  · rintro (houtworks | ⟨walk, -, hlt⟩)
    · exact houtworks
    · rw [hscore, hscore] at hlt
      exact absurd hlt (Nat.lt_irrefl 0)
  · exact .inl

/-! ## Adding a header -/

/-- If there is a head, then also afterwards, and it is the same one or has more work. -/
def GainsWork (i j : Index) : Prop :=
  ∀ head, i.store.head = some head →
    ∃ head', j.store.head = some head' ∧ (head' = head ∨ head.work < head'.work)

theorem GainsWork.of_head_eq (heq : j.store.head = i.store.head) : GainsWork i j :=
  fun head hhead ↦ ⟨head, heq.trans hhead, .inl rfl⟩

theorem GainsWork.trans (hij : GainsWork i j) (hjk : GainsWork j k) : GainsWork i k := by
  intro head hhead
  obtain ⟨head', hhead', hgain⟩ := hij head hhead
  obtain ⟨head'', hhead'', hgain'⟩ := hjk head' hhead'
  refine ⟨head'', hhead'', ?_⟩
  rcases hgain with rfl | hlt
  · exact hgain'
  · rcases hgain' with rfl | hlt'
    · exact .inr hlt
    · exact .inr (Nat.lt_trans hlt hlt')

instance : IsTrans Index GainsWork := ⟨fun _ _ _ ↦ GainsWork.trans⟩

/-- An index that does not speculate and holds no proofs. -/
structure ProofFree (i : Index) : Prop where
  idle : i.isSpeculating = false
  headed : i.store.Headed Set.univ
  hasProof : ∀ e ∈ i.store.blocks, e.hasProof = false

theorem ProofFree.start (params : NetworkParameters) : ProofFree { params } where
  idle := rfl
  headed := Store.Headed.empty
  hasProof _ he := absurd he List.not_mem_nil

/-- A header that comes right after the head, or that is preferred to it, has more work. -/
theorem ProofFree.work_lt_of_promotes (hi : ProofFree i)
    (haccept : i.accept i.store.head h .zero = .ok (some a)) (hhead : i.store.head = some head)
    (hj : j.Unproven) (hpromotes : j.promotes (some head) a = true) :
    head.work < a.entry.work := by
  rw [promotes, Bool.or_eq_true, decide_eq_true_eq, hj.prefers_iff] at hpromotes
  rcases hpromotes with hparent | houtworks
  · obtain ⟨work, hwork, ⟨hnone, -⟩ | ⟨-, -, p, hp, rfl⟩⟩ := accept_eq_ok_some haccept
    · rw [hhead] at hnone
      cases hnone
    · rw [lookup_of_idle hi.idle] at hp
      have hpmem : p ∈ i.store.blocks := Store.get_mem hi.headed.keyed hp
      have hmem : head ∈ i.store.blocks := (hi.headed.head_eq_some_iff.mp hhead).1
      obtain rfl : head = p := hi.headed.keyed.eq_of_id_eq hmem hpmem (Option.some.inj hparent)
      have hpos : 0 < work := Compact.decode_pos hwork
      dsimp only
      omega
  · exact houtworks.2

theorem ProofFree.commit (hi : ProofFree i)
    (haccept : i.accept i.store.head h .zero = .ok (some a))
    (hheaded : (i.commit a).1.store.Headed Set.univ) :
    ProofFree (i.commit a).1 ∧ GainsWork i (i.commit a).1 := by
  obtain ⟨hfits, -⟩ := admits_of_accept hi.idle hi.headed (Set.mem_univ h) haccept
  have hproof : a.entry.proof = .zero := by
    obtain ⟨work, -, ⟨-, rfl⟩ | ⟨-, -, p, -, rfl⟩⟩ := accept_eq_ok_some haccept <;> rfl
  have hput : ∀ e ∈ (i.store.put a.entry).blocks, e.hasProof = false := by
    intro e he
    rcases (Store.mem_blocks_put hi.headed.keyed).mp he with rfl | ⟨he, -⟩
    · rw [Entry.hasProof, hproof]
      rfl
    · exact hi.hasProof e he
  have hunproven : Unproven { i with store := i.store.put a.entry } :=
    unproven_of_idle hi.idle (hi.headed.keyed.put a.entry) hput
  have hcommit := commit_eq i a
  rw [attachAdmitted_zero hproof] at hcommit
  dsimp only at hcommit
  rw [head_put hi.headed.toSound hfits] at hcommit
  split at hcommit
  · rename_i hpromotes
    rw [hcommit] at hheaded ⊢
    refine ⟨⟨hi.idle, hheaded, hput⟩, ?_⟩
    intro head hhead
    rw [hhead] at hpromotes
    refine ⟨a.entry, ?_, .inr (hi.work_lt_of_promotes haccept hhead hunproven hpromotes)⟩
    exact hheaded.head_eq_some_iff.mpr ⟨(Store.mem_blocks_put hi.headed.keyed).mpr (.inl rfl), rfl⟩
  · rw [hcommit] at hheaded ⊢
    exact ⟨⟨hi.idle, hheaded, hput⟩, .of_head_eq (head_put hi.headed.toSound hfits)⟩

theorem ProofFree.add (hi : ProofFree i) (h : Header) :
    ProofFree (i.add h .zero).1 ∧ GainsWork i (i.add h .zero).1 := by
  have hheaded := (outcome_addEdits hi.headed (Set.mem_univ h) .zero).headed hi.headed
  change ProofFree (i.addEdits h .zero).1 ∧ GainsWork i (i.addEdits h .zero).1
  rcases i.addEdits_cases h .zero with ⟨e, hadd⟩ | hadd | ⟨a, -, haccept, hadd⟩
  · rw [hadd]
    exact ⟨hi, .of_head_eq rfl⟩
  · rw [hadd]
    exact ⟨hi, .of_head_eq rfl⟩
  · rw [hadd] at hheaded ⊢
    exact hi.commit haccept hheaded

/-! ## Runs of calls -/

/-- A call that brings headers without proofs. -/
inductive Delivery where
  | one (h : Header)
  | several (hs : List Header)

def receive (i : Index) : Delivery → Index × Except Fault (List Change)
  | .one h => i.add h .zero
  | .several hs => i.addAll hs

/-- The indexes after each of several headers, up to the first that fails. -/
def addStages (i : Index) : List Header → List Index
  | [] => []
  | h :: hs =>
    match i.add h .zero with
    | (j, .ok _) => j :: j.addStages hs
    | (_, .error _) => []

/-- The indexes in the middle of a call. -/
def stages (i : Index) : Delivery → List Index
  | .one _ => []
  | .several hs => i.addStages (hs.mergeSort fun a b => decide (a.height ≤ b.height))

/-- All indexes of a run of calls, those in the middle of the calls included.  Calls may fail, and
the run goes on; but nothing follows a call that dies. -/
def course (i : Index) : List Delivery → List Index
  | [] => [i]
  | d :: rest =>
    i :: i.stages d ++
      match i.receive d with
      | (_, .error .workTooWide) => []
      | (j, _) => j.course rest

theorem course_eq_cons (i : Index) (deliveries : List Delivery) :
    ∃ rest, i.course deliveries = i :: rest := by
  cases deliveries with
  | nil => exact ⟨[], rfl⟩
  | cons d deliveries => exact ⟨_, rfl⟩

theorem ProofFree.addEach (hi : ProofFree i) (hs : List Header) :
    ProofFree (i.addEach hs).1 ∧
      (i :: i.addStages hs ++ [(i.addEach hs).1]).IsChain GainsWork := by
  induction hs generalizing i with
  | nil => exact ⟨hi, List.isChain_pair.mpr (.of_head_eq rfl)⟩
  | cons h hs ih =>
    obtain ⟨hnext, hgains⟩ := hi.add h
    unfold Index.addEach addStages
    cases hadd : i.add h .zero with
    | mk j result =>
      rw [hadd] at hnext hgains
      cases result with
      | error f => exact ⟨hnext, List.isChain_pair.mpr hgains⟩
      | ok changes =>
        obtain ⟨hlast, hchain⟩ := ih hnext
        exact ⟨hlast, List.isChain_cons_cons.mpr ⟨hgains, hchain⟩⟩

theorem ProofFree.receive (hi : ProofFree i) (d : Delivery) :
    ProofFree (i.receive d).1 ∧ (i :: i.stages d ++ [(i.receive d).1]).IsChain GainsWork := by
  cases d with
  | one h =>
    obtain ⟨hnext, hgains⟩ := hi.add h
    exact ⟨hnext, List.isChain_pair.mpr hgains⟩
  | several hs =>
    rw [Index.receive, addAll_of_idle hi.idle]
    exact hi.addEach _

theorem ProofFree.course (hi : ProofFree i) (deliveries : List Delivery) :
    (i.course deliveries).IsChain GainsWork := by
  induction deliveries generalizing i with
  | nil => exact List.isChain_singleton i
  | cons d deliveries ih =>
    obtain ⟨hnext, hchain⟩ := hi.receive d
    unfold Index.course
    split
    · rw [List.append_nil]
      exact hchain.left_of_append
    · rename_i j result _ hreceive
      rw [hreceive] at hnext hchain
      obtain ⟨rest, hrest⟩ := course_eq_cons j deliveries
      have hlater : ([j] ++ rest).IsChain GainsWork := by
        rw [List.singleton_append, ← hrest]
        exact ih hnext
      have hall := hchain.append_overlap hlater (List.cons_ne_nil j [])
      rwa [List.append_assoc, List.singleton_append, ← hrest] at hall

/-- Whenever the head moves in a run without proofs, the new head has more work than the one before
it, so its work never decreases. -/
theorem head_gains_work (params : NetworkParameters) (deliveries : List Delivery) :
    (({ params } : Index).course deliveries).Pairwise GainsWork :=
  List.isChain_iff_pairwise.mp ((ProofFree.start params).course deliveries)

open Sample in
/-- The head moves to the second header and from there to a rival with more work. -/
example : (({ params := .testnet } : Index).course [.one genesis, .one second, .one rival]).map
    (fun i ↦ i.store.head.map (·.work)) =
      [none, some 100000000, some 200000000, some 25700000000] := by decide +kernel

end Index

end EndorsedChain
