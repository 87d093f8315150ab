import EndorsedChain.Index.Add
import EndorsedChain.Proofs.Fork.Halting
import EndorsedChain.Proofs.Store.Distinct

/-!
# What checks and fork choice depend on

Checks read entries through look-ups and take nothing but headers from a chain.  Fork choice takes
the headers of the entries it walks over, and looks their proofs up again.  So two indexes that
find the same entries admit the same headers and prefer the same candidates, even if their copies
of the head do not have the same proof.
-/

namespace EndorsedChain

open VeriBlock

/-! ## Checks -/

section Checks

variable {c d : List Entry}

theorem length_eq_of_headers_eq (h : c.map (·.header) = d.map (·.header)) :
    c.length = d.length := by
  simpa using congrArg List.length h

theorem recentTimestamps_eq (c : List Entry) :
    recentTimestamps c =
      ((((c.map (·.header)).mergeSort fun a b ↦ decide (b.height ≤ a.height)).take
        medianWindow).map (·.timestamp)).mergeSort fun a b ↦ decide (a ≤ b) := by
  have hsort : (c.mergeSort fun a b ↦ decide (b.height ≤ a.height)).map (·.header) =
      (c.map (·.header)).mergeSort fun a b ↦ decide (b.height ≤ a.height) :=
    List.map_mergeSort fun _ _ _ _ ↦ rfl
  rw [← hsort, ← List.map_take, List.map_map]
  rfl

theorem checkTimestamp_congr (h : Header) (hheaders : c.map (·.header) = d.map (·.header)) :
    checkTimestamp h c = checkTimestamp h d := by
  unfold checkTimestamp medianTimePast
  rw [length_eq_of_headers_eq hheaders, recentTimestamps_eq, recentTimestamps_eq, hheaders]

theorem checkDifficulty_congr (params : NetworkParameters) (h : Header)
    (hheaders : c.map (·.header) = d.map (·.header)) :
    checkDifficulty params h c = checkDifficulty params h d := by
  unfold checkDifficulty
  rw [length_eq_of_headers_eq hheaders, List.map_take, List.map_take, hheaders]

end Checks

namespace Index

variable {i j : Index}

/-- Two indexes that answer alike. -/
structure Agrees (i j : Index) : Prop where
  params : i.params = j.params
  bitcoin : i.bitcoin = j.bitcoin
  lookup : i.lookup = j.lookup

/-- Whether the chains of two indexes have the same headers. -/
def SameChains (i j : Index) : Prop :=
  ∀ hash count, (i.chain hash count).map (·.header) = (j.chain hash count).map (·.header)

theorem checkConnectivity_congr (hagrees : Agrees i j) (hchains : SameChains i j) (h : Header) :
    i.checkConnectivity h = j.checkConnectivity h := by
  unfold checkConnectivity knowsAgo
  simp only [hagrees.lookup, length_eq_of_headers_eq (hchains _ _)]

theorem checkContext_congr (hagrees : Agrees i j) (hchains : SameChains i j) (h : Header) :
    i.checkContext h = j.checkContext h := by
  unfold checkContext
  simp only [hagrees.params, checkTimestamp_congr h (hchains _ _),
    checkDifficulty_congr j.params h (hchains _ _)]

/-- The same headers are admitted, with the same work. -/
theorem accept_congr (hagrees : Agrees i j) (hchains : SameChains i j) {head head' : Option Entry}
    (hhead : Option.Rel Entry.Alike head head') (h : Header) (proof : Digest) :
    i.accept head h proof = j.accept head' h proof := by
  unfold accept
  rw [checkConnectivity_congr hagrees hchains, checkContext_congr hagrees hchains, hagrees.lookup]
  cases hhead with
  | none => rfl
  | some _ => rfl

/-! ## Fork choice -/

theorem keystoneProof_congr (hagrees : Agrees i j) {a b : Entry} (h : a.header = b.header)
    (last : Option Nat) : i.keystoneProof a last = j.keystoneProof b last := by
  unfold keystoneProof
  rw [hagrees.lookup, hagrees.bitcoin, Entry.hash, Entry.hash, h]

theorem countedProofs_congr (hagrees : Agrees i j) {l m : List Entry}
    (h : l.map (·.header) = m.map (·.header)) (last : Option Nat) :
    i.countedProofs last l = j.countedProofs last m := by
  induction l generalizing m last with
  | nil =>
    cases List.map_eq_nil_iff.mp h.symm
    rfl
  | cons a l ih =>
    obtain ⟨b, m, rfl, hheader, hrest⟩ := List.map_eq_cons_iff.mp h.symm
    unfold countedProofs
    rw [keystoneProof_congr hagrees hheader.symm]
    exact congrArg _ (ih hrest.symm _)

theorem headers_byHeight (l : List Entry) : (byHeight l).map (·.header) =
    (l.map (·.header)).mergeSort fun a b ↦ decide (a.height ≤ b.height) :=
  List.map_mergeSort fun _ _ _ _ ↦ rfl

theorem compareChains_congr (hagrees : Agrees i j) {l l' m m' : List Entry}
    (hl : l.map (·.header) = l'.map (·.header)) (hm : m.map (·.header) = m'.map (·.header)) :
    i.compareChains l m = j.compareChains l' m' := by
  have hl' : (byHeight l).map (·.header) = (byHeight l').map (·.header) := by
    rw [headers_byHeight, headers_byHeight, hl]
  have hm' : (byHeight m).map (·.header) = (byHeight m').map (·.header) := by
    rw [headers_byHeight, headers_byHeight, hm]
  unfold compareChains
  rw [countedProofs_congr hagrees hl', countedProofs_congr hagrees hm']

end Index

namespace ForkWalk

/-- Two walks over the same headers. -/
structure Alike (w w' : ForkWalk) : Prop where
  incumbent : w.incumbent.header = w'.incumbent.header
  candidate : w.candidate.header = w'.candidate.header
  incumbents : w.incumbents.map (·.header) = w'.incumbents.map (·.header)
  candidates : w.candidates.map (·.header) = w'.candidates.map (·.header)

/-- Two outcomes of the same kind, over the same headers. -/
inductive Outcome.Alike : Outcome → Outcome → Prop
  | met {w w' : ForkWalk} (h : w.Alike w') : Alike (.met w) (.met w')
  | lost : Alike .lost .lost
  | unfinished : Alike .unfinished .unfinished

theorem start_alike {a b : Entry} (h : a.header = b.header) (candidate : Entry) :
    Alike (start a candidate) (start b candidate) where
  incumbent := h
  candidate := rfl
  incumbents := by
    simp only [start, h]
    split
    · exact congrArg (fun h ↦ [h]) h
    · rfl
  candidates := rfl

theorem step_alike (lookup : VBlake → Option Entry) {w w' : ForkWalk} (h : w.Alike w') :
    Option.Rel Alike (w.step lookup) (w'.step lookup) := by
  have happend {l m : List Entry} (hl : l.map (·.header) = m.map (·.header)) (e : Entry) :
      (l ++ [e]).map (·.header) = (m ++ [e]).map (·.header) := by
    rw [List.map_append, List.map_append, hl]
  have hindex : w.incumbent.keystoneIndex = w'.incumbent.keystoneIndex :=
    congrArg Header.keystoneIndex h.incumbent
  have hindex' : w.candidate.keystoneIndex = w'.candidate.keystoneIndex :=
    congrArg Header.keystoneIndex h.candidate
  rw [step_eq, step_eq, hindex, hindex', h.incumbent, h.candidate]
  by_cases hcandidate : w'.candidate.keystoneIndex < w'.incumbent.keystoneIndex
  · rw [if_pos hcandidate, if_pos hcandidate]
    cases lookup w'.incumbent.header.effectivePreviousKeystone with
    | none => exact .none
    | some d => exact .some ⟨rfl, h.candidate, happend h.incumbents d, h.candidates⟩
  rw [if_neg hcandidate, if_neg hcandidate]
  by_cases hincumbent : w'.incumbent.keystoneIndex < w'.candidate.keystoneIndex
  · rw [if_pos hincumbent, if_pos hincumbent]
    cases lookup w'.candidate.header.effectivePreviousKeystone with
    | none => exact .none
    | some e => exact .some ⟨h.incumbent, rfl, h.incumbents, happend h.candidates e⟩
  rw [if_neg hincumbent, if_neg hincumbent]
  cases lookup w'.incumbent.header.effectivePreviousKeystone with
  | none => exact .none
  | some d =>
    cases lookup w'.candidate.header.effectivePreviousKeystone with
    | none => exact .none
    | some e => exact .some ⟨rfl, rfl, happend h.incumbents d, happend h.candidates e⟩

theorem Alike.met_iff {w w' : ForkWalk} (h : w.Alike w') :
    w.incumbent.hash = w.candidate.hash ↔ w'.incumbent.hash = w'.candidate.hash := by
  rw [Entry.hash, Entry.hash, h.incumbent, h.candidate]
  rfl

theorem run_alike (lookup : VBlake → Option Entry) (n : Nat) {w w' : ForkWalk} (h : w.Alike w') :
    Outcome.Alike (run lookup n w) (run lookup n w') := by
  induction n generalizing w w' with
  | zero =>
    by_cases hmet : w.incumbent.hash = w.candidate.hash
    · rw [run_of_met hmet, run_of_met (h.met_iff.mp hmet)]
      exact .met h
    · rw [run_zero hmet, run_zero (mt h.met_iff.mpr hmet)]
      exact .unfinished
  | succ n ih =>
    by_cases hmet : w.incumbent.hash = w.candidate.hash
    · rw [run_of_met hmet, run_of_met (h.met_iff.mp hmet)]
      exact .met h
    have hmet' := mt h.met_iff.mpr hmet
    have hstep := step_alike lookup h
    cases hw : w.step lookup with
    | none =>
      rw [hw] at hstep
      cases hw' : w'.step lookup with
      | none =>
        rw [run_of_step_none hmet hw, run_of_step_none hmet' hw']
        exact .lost
      | some next' => rw [hw'] at hstep; cases hstep
    | some next =>
      rw [hw] at hstep
      cases hw' : w'.step lookup with
      | none => rw [hw'] at hstep; cases hstep
      | some next' =>
        rw [hw'] at hstep
        rw [run_of_step_some hmet hw, run_of_step_some hmet' hw']
        cases hstep with
        | some hnext => exact ih hnext

end ForkWalk

namespace Index

variable {i j : Index} {known : List Entry}

/-- The same candidates are preferred, as long as neither index knows fewer entries than it
finds. -/
theorem prefers_congr (hagrees : Agrees i j) (hknown : ∀ ref e, i.lookup ref = some e → e ∈ known)
    (hi : known.length ≤ i.knownCount) (hj : known.length ≤ j.knownCount) {head head' : Entry}
    (hhead : head.Alike head') (candidate : Entry) :
    i.prefers head candidate = j.prefers head' candidate := by
  have hrun : ForkWalk.run i.lookup i.forkSteps (.start head' candidate) =
      ForkWalk.run j.lookup j.forkSteps (.start head' candidate) := by
    rw [← hagrees.lookup]
    have hsteps {n : Nat} (h : known.length ≤ n) :
        (known.length + 1) * (known.length + 1) ≤ (n + 1) * (n + 1) :=
      Nat.mul_le_mul (by omega) (by omega)
    exact ForkWalk.run_eq_run hknown (hsteps hi) (hsteps hj)
  have halike := ForkWalk.run_alike i.lookup i.forkSteps
    (ForkWalk.start_alike hhead.header candidate)
  unfold prefers
  rw [hhead.header, hhead.work]
  split
  · rfl
  · rw [← hrun]
    cases hstart : ForkWalk.run i.lookup i.forkSteps (.start head candidate) <;>
      cases hstart' : ForkWalk.run i.lookup i.forkSteps (.start head' candidate) <;>
      rw [hstart, hstart'] at halike <;> cases halike
    · rename_i hwalk
      exact congrArg (· == Ordering.gt)
        (compareChains_congr hagrees hwalk.candidates hwalk.incumbents)

theorem promotes_congr (hagrees : Agrees i j) (hknown : ∀ ref e, i.lookup ref = some e → e ∈ known)
    (hi : known.length ≤ i.knownCount) (hj : known.length ≤ j.knownCount)
    {head head' : Option Entry} (hhead : Option.Rel Entry.Alike head head') (a : Admission) :
    i.promotes head a = j.promotes head' a := by
  cases hhead with
  | none => rfl
  | some halike =>
    unfold promotes
    simp only [Entry.hash, halike.header, prefers_congr hagrees hknown hi hj halike]
    rfl

end Index

end EndorsedChain
