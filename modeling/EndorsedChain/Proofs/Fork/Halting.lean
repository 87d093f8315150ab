import EndorsedChain.Index.Fork
import EndorsedChain.Proofs.Steps
import Mathlib.Data.List.ProdSigma

/-!
# How many steps a fork walk takes

What a walk does next is decided by its two cursors.  Among finitely many known entries there are
finitely many pairs of cursors, so a walk that takes more steps than that has been at some pair
twice and never ends.  The answer is therefore the same for any larger number of steps
(`ForkWalk.run_eq_run`).
-/

namespace EndorsedChain

open VeriBlock

/-! ## Cursors -/

namespace ForkWalk

variable {lookup : VBlake → Option Entry} {w : ForkWalk} {m n : Nat}

def cursors (w : ForkWalk) : Entry × Entry := (w.incumbent, w.candidate)

/-- The next pair of cursors, unless the walk ends here. -/
def advance (lookup : VBlake → Option Entry) (c : Entry × Entry) : Option (Entry × Entry) :=
  if c.1.hash = c.2.hash then none else ((⟨c.1, c.2, [], []⟩ : ForkWalk).step lookup).map cursors

theorem step_eq (lookup : VBlake → Option Entry) (w : ForkWalk) :
    w.step lookup =
      if w.candidate.keystoneIndex < w.incumbent.keystoneIndex then
        (lookup w.incumbent.header.effectivePreviousKeystone).map fun e ↦
          ⟨e, w.candidate, w.incumbents ++ [e], w.candidates⟩
      else if w.incumbent.keystoneIndex < w.candidate.keystoneIndex then
        (lookup w.candidate.header.effectivePreviousKeystone).map fun e ↦
          ⟨w.incumbent, e, w.incumbents, w.candidates ++ [e]⟩
      else
        (lookup w.incumbent.header.effectivePreviousKeystone).bind fun d ↦
          (lookup w.candidate.header.effectivePreviousKeystone).map fun e ↦
            ⟨d, e, w.incumbents ++ [d], w.candidates ++ [e]⟩ := by
  have hincumbent : w.stepIncumbent lookup =
      (lookup w.incumbent.header.effectivePreviousKeystone).map fun e ↦
        ⟨e, w.candidate, w.incumbents ++ [e], w.candidates⟩ := by
    rw [Option.map_eq_bind]
    rfl
  have hcandidate (w : ForkWalk) : w.stepCandidate lookup =
      (lookup w.candidate.header.effectivePreviousKeystone).map fun e ↦
        ⟨w.incumbent, e, w.incumbents, w.candidates ++ [e]⟩ := by
    rw [Option.map_eq_bind]
    rfl
  rw [step, hincumbent, hcandidate, Option.bind_map]
  split_ifs
  · rfl
  · rfl
  · exact congrArg _ (funext fun d ↦ hcandidate _)

theorem step_cursors (lookup : VBlake → Option Entry) (w : ForkWalk) :
    (w.step lookup).map cursors =
      ((⟨w.incumbent, w.candidate, [], []⟩ : ForkWalk).step lookup).map cursors := by
  rw [step_eq, step_eq]
  split_ifs
  · rw [Option.map_map, Option.map_map]
    rfl
  · rw [Option.map_map, Option.map_map]
    rfl
  · rw [Option.map_bind, Option.map_bind]
    refine congrArg _ (funext fun d ↦ ?_)
    rw [Function.comp_apply, Function.comp_apply, Option.map_map, Option.map_map]
    rfl

theorem run_of_met (h : w.incumbent.hash = w.candidate.hash) (n : Nat) :
    run lookup n w = .met w := by
  unfold run
  rw [if_pos h]

theorem run_zero (h : w.incumbent.hash ≠ w.candidate.hash) : run lookup 0 w = .unfinished := by
  unfold run
  rw [if_neg h]

theorem run_of_step_none (h : w.incumbent.hash ≠ w.candidate.hash) (hstep : w.step lookup = none)
    (n : Nat) : run lookup (n + 1) w = .lost := by
  unfold run
  rw [if_neg h, hstep]

theorem run_of_step_some {next : ForkWalk} (h : w.incumbent.hash ≠ w.candidate.hash)
    (hstep : w.step lookup = some next) (n : Nat) :
    run lookup (n + 1) w = run lookup n next := by
  conv_lhs => unfold run
  rw [if_neg h, hstep]

/-- What every step preserves holds where the cursors meet. -/
theorem run_invariant {P : ForkWalk → Prop} {v : ForkWalk}
    (hstep : ∀ {w next : ForkWalk}, P w → w.step lookup = some next → P next) (h : P w)
    (hrun : run lookup n w = .met v) : P v ∧ v.incumbent.hash = v.candidate.hash := by
  induction n generalizing w with
  | zero =>
    by_cases hmet : w.incumbent.hash = w.candidate.hash
    · rw [run_of_met hmet] at hrun
      cases hrun
      exact ⟨h, hmet⟩
    · rw [run_zero hmet] at hrun
      cases hrun
  | succ n ih =>
    by_cases hmet : w.incumbent.hash = w.candidate.hash
    · rw [run_of_met hmet] at hrun
      cases hrun
      exact ⟨h, hmet⟩
    · cases hnext : w.step lookup with
      | none =>
        rw [run_of_step_none hmet hnext] at hrun
        cases hrun
      | some next =>
        rw [run_of_step_some hmet hnext] at hrun
        exact ih (hstep h hnext) hrun

/-- A walk is unfinished if all its steps lead to cursors that are apart. -/
theorem run_eq_unfinished_iff : run lookup n w = .unfinished ↔
    ∃ c, steps (advance lookup) n (some w.cursors) = some c ∧ c.1.hash ≠ c.2.hash := by
  induction n generalizing w with
  | zero =>
    by_cases hmet : w.incumbent.hash = w.candidate.hash
    · rw [run_of_met hmet]
      refine ⟨nofun, ?_⟩
      rintro ⟨c, hc, hne⟩
      cases hc
      exact absurd hmet hne
    · exact ⟨fun _ ↦ ⟨w.cursors, rfl, hmet⟩, fun _ ↦ run_zero hmet⟩
  | succ n ih =>
    rw [steps_succ]
    by_cases hmet : w.incumbent.hash = w.candidate.hash
    · have hend : advance lookup w.cursors = none := if_pos hmet
      rw [run_of_met hmet, hend, steps_none]
      refine ⟨nofun, ?_⟩
      rintro ⟨c, hc, -⟩
      cases hc
    · have hnext : advance lookup w.cursors = (w.step lookup).map cursors :=
        (if_neg hmet).trans (step_cursors lookup w).symm
      rw [hnext]
      cases hstep : w.step lookup with
      | none =>
        rw [run_of_step_none hmet hstep, Option.map_none, steps_none]
        refine ⟨nofun, ?_⟩
        rintro ⟨c, hc, -⟩
        cases hc
      | some next =>
        rw [run_of_step_some hmet hstep]
        exact ih

/-- A walk that has ended does not change with more steps. -/
theorem run_add (h : run lookup n w ≠ .unfinished) (m : Nat) :
    run lookup (n + m) w = run lookup n w := by
  induction n generalizing w with
  | zero =>
    by_cases hmet : w.incumbent.hash = w.candidate.hash
    · rw [run_of_met hmet, run_of_met hmet]
    · exact absurd (run_zero hmet) h
  | succ n ih =>
    rw [Nat.succ_add_eq_add_succ, Nat.add_succ]
    by_cases hmet : w.incumbent.hash = w.candidate.hash
    · rw [run_of_met hmet, run_of_met hmet]
    · cases hstep : w.step lookup with
      | none => rw [run_of_step_none hmet hstep, run_of_step_none hmet hstep]
      | some next =>
        rw [run_of_step_some hmet hstep] at h
        rw [run_of_step_some hmet hstep, run_of_step_some hmet hstep]
        exact ih h

/-- Runs that end come out the same. -/
theorem eq_of_ended {o o' : Outcome} (h : run lookup m w = o) (h' : run lookup n w = o')
    (hended : o ≠ .unfinished) (hended' : o' ≠ .unfinished) : o = o' := by
  subst h h'
  rw [← run_add hended n, ← run_add hended' m, Nat.add_comm]

theorem advance_mem {known : List Entry} (hknown : ∀ ref e, lookup ref = some e → e ∈ known)
    {a b : Entry} {c d : Entry × Entry} (hc : c ∈ (a :: known) ×ˢ (b :: known))
    (h : advance lookup c = some d) : d ∈ (a :: known) ×ˢ (b :: known) := by
  obtain ⟨ha, hb⟩ := List.pair_mem_product.mp hc
  unfold advance at h
  split at h
  · cases h
  · obtain ⟨next, hnext, rfl⟩ := Option.map_eq_some_iff.mp h
    refine List.pair_mem_product.mpr ?_
    rw [step_eq] at hnext
    split_ifs at hnext
    · obtain ⟨e, he, rfl⟩ := Option.map_eq_some_iff.mp hnext
      exact ⟨List.mem_cons_of_mem a (hknown _ e he), hb⟩
    · obtain ⟨e, he, rfl⟩ := Option.map_eq_some_iff.mp hnext
      exact ⟨ha, List.mem_cons_of_mem b (hknown _ e he)⟩
    · obtain ⟨d, hd, hnext⟩ := Option.bind_eq_some_iff.mp hnext
      obtain ⟨e, he, rfl⟩ := Option.map_eq_some_iff.mp hnext
      exact ⟨List.mem_cons_of_mem a (hknown _ d hd), List.mem_cons_of_mem b (hknown _ e he)⟩

/-- With enough steps for all pairs of known entries, more steps make no difference. -/
theorem run_eq_run {known : List Entry} (hknown : ∀ ref e, lookup ref = some e → e ∈ known)
    (hm : (known.length + 1) * (known.length + 1) ≤ m)
    (hn : (known.length + 1) * (known.length + 1) ≤ n) : run lookup m w = run lookup n w := by
  have hsteps : ∀ {m n : Nat}, (known.length + 1) * (known.length + 1) ≤ m →
      run lookup m w = .unfinished → run lookup n w = .unfinished := by
    intro m n hm hunfinished
    obtain ⟨c, hc, -⟩ := run_eq_unfinished_iff.mp hunfinished
    have hlength : ((w.incumbent :: known) ×ˢ (w.candidate :: known)).length ≤ m := by
      rwa [List.length_product]
    have hcursors : w.cursors ∈ (w.incumbent :: known) ×ˢ (w.candidate :: known) :=
      List.pair_mem_product.mpr ⟨List.mem_cons_self, List.mem_cons_self⟩
    have hforever := steps_ne_none (advance lookup) (fun c hc d ↦ advance_mem hknown hc) hcursors
      fun hnone ↦ by rw [steps_eq_none_of_le _ hlength hnone] at hc; cases hc
    obtain ⟨d, hd⟩ := Option.ne_none_iff_exists'.mp (hforever n)
    refine run_eq_unfinished_iff.mpr ⟨d, hd, fun hmet ↦ hforever (1 + n) ?_⟩
    rw [steps_add, hd, steps_succ, advance, if_pos hmet, steps_none]
  by_cases hunfinished : run lookup m w = .unfinished
  · rw [hunfinished, hsteps hm hunfinished]
  · exact eq_of_ended rfl rfl hunfinished fun h ↦ hunfinished (hsteps hn h)

end ForkWalk

end EndorsedChain
