import EndorsedChain.Index.Speculate
import EndorsedChain.Proofs.Index.Works
import EndorsedChain.Proofs.Sample.Openings

/-!
# What an index can die of

An archive is an index in use whose holder keeps every list of changes that a mutation returned, and
may rewind any of them, in any order and as often as it likes.  Calls may fail.  The index dies
exactly if it admits a header whose work has more than 255 bytes.  This takes headers whose stated
works add up to that much, but three of them are enough.
-/

namespace EndorsedChain

open VeriBlock Sample

/-- An index and what its mutations returned, the newest list first. -/
structure Archive where
  index : Index
  returned : List (List Change) := []

inductive Request where
  | add (h : Header) (proof : Digest)
  | addAll (hs : List Header)
  | prove (h : Header) (proof : Digest)
  | addTemporarily (h : Header) (proof : Digest)
  | addAllTemporarily (hs : List Header)
  | proveTemporarily (h : Header) (proof : Digest)
  | clearTemporary
  /-- Rewinds the lists at the given positions in one go. -/
  | rewind (positions : List Nat)

namespace Request

/-- The headers that are added to the store. -/
def added : Request → List Header
  | add h _ => [h]
  | addAll hs => hs
  | _ => []

/-- The works that the added headers state. -/
def statedWork (r : Request) : Nat := (r.added.map Header.statedWork).sum

/-- A header is admitted, but its work does not have a property. -/
def Exceeds (P : Nat → Prop) (i : Index) : Request → Prop
  | add h proof => i.Exceeds P h proof
  | addAll hs => i.ExceedsAll P hs
  | _ => False

theorem Exceeds.mono {P Q : Nat → Prop} {i : Index} {r : Request} (hPQ : ∀ n, P n → Q n)
    (h : r.Exceeds Q i) : r.Exceeds P i := by
  cases r with
  | add => exact Index.Exceeds.mono hPQ h
  | addAll => exact Index.ExceedsAll.mono hPQ h
  | prove | addTemporarily | addAllTemporarily | proveTemporarily | clearTemporary | rewind =>
    exact h

end Request

namespace Archive

def start (params : NetworkParameters) : Archive := ⟨{ params }, []⟩

/-- Keeps the changes that a mutation returned. An index that died is lost. -/
def keep (a : Archive) : Index × Except Index.Fault (List Change) → Option Archive
  | (index, .ok changes) => some ⟨index, changes :: a.returned⟩
  | (index, .error (.rejected _)) => some { a with index }
  | (_, .error .workTooWide) => none

def step (a : Archive) : Request → Option Archive
  | .add h proof => a.keep (a.index.add h proof)
  | .addAll hs => a.keep (a.index.addAll hs)
  | .prove h proof => a.keep (a.index.prove h proof)
  | .addTemporarily h proof => some { a with index := (a.index.addTemporarily h proof).1 }
  | .addAllTemporarily hs => some { a with index := (a.index.addAllTemporarily hs).1 }
  | .proveTemporarily h proof => some { a with index := a.index.proveTemporarily h proof }
  | .clearTemporary => some { a with index := a.index.clearTemporary }
  | .rewind positions =>
    some { a with index := (a.index.rewind (positions.filterMap (a.returned[·]?)).flatten).1 }

def run (a : Archive) : List Request → Option Archive
  | [] => some a
  | r :: rs => (a.step r).bind (·.run rs)

variable {P Q : Nat → Prop} {a b : Archive} {r : Request} {rs : List Request} {bound : Nat}

/-- The works of the stored entries have a property, and so have those that rewinding restores. -/
structure Works (P : Nat → Prop) (a : Archive) : Prop where
  store : a.index.store.Works P
  returned : ∀ changes ∈ a.returned, ∀ c ∈ changes, c.Restores P

theorem works_start (params : NetworkParameters) : (start params).Works P :=
  ⟨Store.Works.empty, List.forall_mem_nil _⟩

theorem Works.mono (hPQ : ∀ n, P n → Q n) (h : a.Works P) : a.Works Q where
  store := h.store.mono hPQ
  returned changes hchanges c hc := (h.returned changes hchanges c hc).mono hPQ

theorem Works.keep (ha : a.Works P) {result : Index × Except Index.Fault (List Change)}
    (h : Index.Leaves P result) (hkeep : a.keep result = some b) : b.Works P := by
  obtain ⟨index, fault | changes⟩ := result
  · cases fault with
    | rejected e =>
      cases hkeep
      exact ⟨h.store, ha.returned⟩
    | workTooWide => cases hkeep
  · cases hkeep
    exact ⟨h.store, List.forall_mem_cons.mpr ⟨h.changes changes rfl, ha.returned⟩⟩

theorem keep_eq_none_iff {result : Index × Except Index.Fault (List Change)} :
    a.keep result = none ↔ result.2 = .error .workTooWide := by
  obtain ⟨index, (_ | _) | changes⟩ := result <;> simp [keep]

theorem Works.step (ha : a.Works P) (hnot : ¬r.Exceeds P a.index) (hstep : a.step r = some b) :
    b.Works P := by
  cases r with
  | add h proof => exact ha.keep (Index.leaves_add ha.store hnot) hstep
  | addAll hs => exact ha.keep (Index.leaves_addAll ha.store hnot) hstep
  | prove h proof => exact ha.keep (Index.leaves_prove ha.store h proof) hstep
  | addTemporarily h proof =>
    cases hstep
    exact ⟨(a.index.store_addTemporarily h proof).symm ▸ ha.store, ha.returned⟩
  | addAllTemporarily hs =>
    cases hstep
    exact ⟨(a.index.store_addAllTemporarily hs).symm ▸ ha.store, ha.returned⟩
  | proveTemporarily h proof =>
    cases hstep
    exact ⟨(a.index.store_proveTemporarily h proof).symm ▸ ha.store, ha.returned⟩
  | clearTemporary =>
    cases hstep
    exact ⟨ha.store, ha.returned⟩
  | rewind positions =>
    cases hstep
    refine ⟨Index.works_rewind ha.store fun c hc ↦ ?_, ha.returned⟩
    obtain ⟨changes, hchanges, hc⟩ := List.mem_flatten.mp hc
    obtain ⟨position, -, hget⟩ := List.mem_filterMap.mp hchanges
    exact ha.returned changes (List.mem_of_getElem? hget) c hc

theorem not_exceeds_of_le (ha : a.Works (· ≤ bound)) :
    ¬r.Exceeds (· ≤ bound + r.statedWork) a.index := by
  cases r with
  | add h proof => exact Index.not_exceeds_of_le ha.store
  | addAll hs => exact Index.not_exceedsAll_of_le ha.store
  | prove | addTemporarily | addAllTemporarily | proveTemporarily | clearTemporary | rewind =>
    exact id

theorem Works.step_eq_none_iff (ha : a.Works Packable) :
    a.step r = none ↔ r.Exceeds Packable a.index := by
  cases r with
  | add h proof => exact keep_eq_none_iff.trans (Index.add_eq_workTooWide_iff ha.store)
  | addAll hs => exact keep_eq_none_iff.trans (Index.addAll_eq_workTooWide_iff ha.store)
  | prove h proof =>
    exact iff_of_false (keep_eq_none_iff.not.mpr (Index.prove_ne_workTooWide ha.store h proof)) id
  | addTemporarily | addAllTemporarily | proveTemporarily | clearTemporary | rewind =>
    exact iff_of_false (Option.some_ne_none _) id

/-- The works that are stored after a run that did not die can be packed. -/
theorem Works.run (ha : a.Works Packable) (hrun : a.run rs = some b) : b.Works Packable := by
  induction rs generalizing a with
  | nil =>
    cases hrun
    exact ha
  | cons r rs ih =>
    obtain ⟨m, hstep, hrest⟩ := Option.bind_eq_some_iff.mp hrun
    refine ih (ha.step (fun hexceeds ↦ ?_) hstep) hrest
    rw [ha.step_eq_none_iff.mpr hexceeds] at hstep
    cases hstep

/-- Nothing dies of works whose sum can be packed. -/
theorem Works.exists_run (ha : a.Works (· ≤ bound))
    (hsum : Packable (bound + (rs.map Request.statedWork).sum)) : ∃ b, a.run rs = some b := by
  induction rs generalizing a bound with
  | nil => exact ⟨a, rfl⟩
  | cons r rs ih =>
    rw [List.map_cons, List.sum_cons, ← Nat.add_assoc] at hsum
    have hpackable : ∀ n ≤ bound + r.statedWork, Packable n :=
      fun n hn ↦ hsum.mono (Nat.le_add_right_of_le hn)
    have hnot : ¬r.Exceeds (· ≤ bound + r.statedWork) a.index := not_exceeds_of_le ha
    have hwider : a.Works (· ≤ bound + r.statedWork) :=
      ha.mono fun n hn ↦ Nat.le_add_right_of_le hn
    cases hstep : a.step r with
    | none =>
      have hexceeds := (hwider.mono hpackable).step_eq_none_iff.mp hstep
      exact absurd (hexceeds.mono hpackable) hnot
    | some m =>
      obtain ⟨b, hb⟩ := ih (hwider.step hnot hstep) hsum
      exact ⟨b, by rw [Archive.run, hstep, Option.bind_some, hb]⟩

/-- An index does not die as long as the stated works of all headers that were added have a sum that
can be packed.  In any case the works that it has stored can be packed, and it dies of a call
exactly if that admits a header whose work cannot. -/
theorem dies_iff_work_too_wide {params : NetworkParameters} {requests : List Request} :
    (Packable (requests.map Request.statedWork).sum →
      ∃ a, (start params).run requests = some a) ∧
    ∀ a, (start params).run requests = some a →
      (∀ e ∈ a.index.store.blocks, Packable e.work) ∧
        ∀ r, a.step r = none ↔ r.Exceeds Packable a.index := by
  constructor
  · intro hsum
    rw [← Nat.zero_add (List.sum _)] at hsum
    exact (works_start params).exists_run hsum
  · intro a hrun
    have ha : a.Works Packable := (works_start params).run hrun
    exact ⟨ha.store.work, fun r ↦ ha.step_eq_none_iff⟩

/-- The second header is added, rewound twice and added again. -/
theorem rewound_twice_lives :
    Packable (([.add genesis .zero, .add second .zero, .rewind [0], .rewind [0],
      .addAll [second]] : List Request).map Request.statedWork).sum ∧
    ∃ a, (start .testnet).run [.add genesis .zero, .add second .zero, .rewind [0], .rewind [0],
        .addAll [second]] = some a ∧
      a.returned.length = 3 ∧ (∀ e ∈ a.index.store.blocks, Packable e.work) ∧
        ∀ r, a.step r = none ↔ r.Exceeds Packable a.index := by
  have hsum : Packable (([.add genesis .zero, .add second .zero, .rewind [0], .rewind [0],
      .addAll [second]] : List Request).map Request.statedWork).sum := by decide +kernel
  obtain ⟨a, hrun⟩ : ∃ a, (start .testnet).run [.add genesis .zero, .add second .zero, .rewind [0],
      .rewind [0], .addAll [second]] = some a := dies_iff_work_too_wide.1 hsum
  have hmap : ((start .testnet).run [.add genesis .zero, .add second .zero, .rewind [0],
      .rewind [0], .addAll [second]]).map (·.returned.length) = some 3 := by decide +kernel
  rw [hrun] at hmap
  exact ⟨hsum, a, hrun, Option.some.inj hmap, dies_iff_work_too_wide.2 a hrun⟩

/-- Three valid headers are enough: the third is admitted, and the index dies of it. -/
theorem dies_of_widest_third :
    (∀ h ∈ [widestGenesis, widestSecond, widestThird], h.validate = .ok ()) ∧
    ∃ a, (start .testnet).run [.add widestGenesis .zero, .add widestSecond .zero] = some a ∧
      a.index.Exceeds Packable widestThird .zero ∧ a.step (.add widestThird .zero) = none := by
  refine ⟨by decide +kernel, ?_⟩
  have hmap : ((start .testnet).run [.add widestGenesis .zero, .add widestSecond .zero]).map
      (fun a ↦ (a.step (.add widestThird .zero)).isNone) = some true := by decide +kernel
  obtain ⟨a, hrun, hnone⟩ := Option.map_eq_some_iff.mp hmap
  have hdies : a.step (.add widestThird .zero) = none := Option.isNone_iff_eq_none.mp hnone
  exact ⟨a, hrun, ((works_start .testnet).run hrun).step_eq_none_iff.mp hdies, hdies⟩

end Archive

end EndorsedChain
