import EndorsedChain.Proofs.Fork.Asymmetry
import EndorsedChain.Proofs.Store.Ancestors
import Mathlib.Tactic.Ring

/-!
# How many rounds a fork walk takes

In each round at least one of the two cursors goes back to its keystone, and none of them can go
back more often than there are known headers, unless it comes back to where it was.  So the rounds
are at most twice as many as the known headers (`fork_walk_ends`).  The heights that decide which
cursor goes back play no part in that: a keystone may be higher than the header that goes back to
it.
-/

namespace EndorsedChain

open VeriBlock Sample

namespace ForkWalk

variable {lookup : VBlake → Option Entry} {w next : ForkWalk} {p q n : Nat} {o : Outcome}

/-- The walk without a bound: it ends after `n` rounds.  One that finds a keystone unknown counts as
a round. -/
inductive Rounds (lookup : VBlake → Option Entry) : ForkWalk → Nat → Outcome → Prop
  | met {w : ForkWalk} (hmet : w.incumbent.hash = w.candidate.hash) : Rounds lookup w 0 (.met w)
  | lost {w : ForkWalk} (hapart : w.incumbent.hash ≠ w.candidate.hash)
    (hstep : w.step lookup = none) : Rounds lookup w 1 .lost
  | step {w next : ForkWalk} {n : Nat} {o : Outcome}
    (hapart : w.incumbent.hash ≠ w.candidate.hash) (hstep : w.step lookup = some next)
    (hrounds : Rounds lookup next n o) : Rounds lookup w (n + 1) o

/-- With a bound that it does not reach, the walk comes out the same. -/
theorem Rounds.ends (h : Rounds lookup w n o) : Ends lookup w n o := by
  induction h with
  | met hmet => exact .met hmet 0
  | lost hapart hstep => exact .lost hapart hstep 0
  | step hapart hstep _ ih => exact .step hapart hstep ih

/-- The header of the keystone that a header goes back to. -/
def headerBack (lookup : VBlake → Option Entry) (h : Header) : Option Header :=
  (lookup h.effectivePreviousKeystone).map (·.header)

/-- From a header one cannot go back `n` times. -/
def EndsWithin (lookup : VBlake → Option Entry) (n : Nat) (h : Header) : Prop :=
  steps (headerBack lookup) n (some h) = none

theorem EndsWithin.pos {h : Header} (hends : EndsWithin lookup n h) : 0 < n := by
  refine Nat.pos_of_ne_zero ?_
  rintro rfl
  cases hends

theorem EndsWithin.back {d e : Entry} (hends : EndsWithin lookup (n + 1) e.header)
    (hlookup : lookup e.header.effectivePreviousKeystone = some d) :
    EndsWithin lookup n d.header := by
  rwa [EndsWithin, steps_succ, headerBack, hlookup] at hends

/-- Each step takes a cursor back, or both of them. -/
theorem exists_endsWithin_of_step (hp : EndsWithin lookup p w.incumbent.header)
    (hq : EndsWithin lookup q w.candidate.header) (hstep : w.step lookup = some next) :
    ∃ p' q', p' + q' < p + q ∧ EndsWithin lookup p' next.incumbent.header ∧
      EndsWithin lookup q' next.candidate.header := by
  obtain ⟨p, rfl⟩ := Nat.exists_eq_add_one_of_ne_zero hp.pos.ne'
  obtain ⟨q, rfl⟩ := Nat.exists_eq_add_one_of_ne_zero hq.pos.ne'
  rw [step_eq] at hstep
  split_ifs at hstep
  · obtain ⟨d, hd, rfl⟩ := Option.map_eq_some_iff.mp hstep
    exact ⟨p, q + 1, by omega, hp.back hd, hq⟩
  · obtain ⟨e, he, rfl⟩ := Option.map_eq_some_iff.mp hstep
    exact ⟨p + 1, q, by omega, hp, hq.back he⟩
  · obtain ⟨d, hd, hstep⟩ := Option.bind_eq_some_iff.mp hstep
    obtain ⟨e, he, rfl⟩ := Option.map_eq_some_iff.mp hstep
    exact ⟨p, q, by omega, hp.back hd, hq.back he⟩

/-- The walk takes no more rounds than both cursors together can go back. -/
theorem exists_rounds (hp : EndsWithin lookup p w.incumbent.header)
    (hq : EndsWithin lookup q w.candidate.header) : ∃ n ≤ p + q, ∃ o, Rounds lookup w n o := by
  induction hk : p + q using Nat.strong_induction_on generalizing p q w with
  | _ k ih =>
    by_cases hmet : w.incumbent.hash = w.candidate.hash
    · exact ⟨0, Nat.zero_le k, _, .met hmet⟩
    cases hstep : w.step lookup with
    | none => exact ⟨1, hk ▸ Nat.le_add_right_of_le hp.pos, _, .lost hmet hstep⟩
    | some next =>
      obtain ⟨p', q', hlt, hp', hq'⟩ := exists_endsWithin_of_step hp hq hstep
      obtain ⟨n, hn, o, hrounds⟩ := ih (p' + q') (hk ▸ hlt) hp' hq' rfl
      exact ⟨n + 1, by omega, o, .step hmet hstep hrounds⟩

end ForkWalk

namespace Index

open ForkWalk

variable {i : Index} {h : Header} {ref : VBlake}

/-! ## Known headers -/

/-- The headers in the store or in the overlay, each of them once. -/
def knownHeaders (i : Index) : List Header :=
  ((i.store.blocks ++ i.mode.overlay.entries).map (·.header)).dedup

theorem mem_knownHeaders_of_get (hget : i.get ref = some h) : h ∈ i.knownHeaders := by
  obtain ⟨e, hlookup, rfl⟩ := Option.map_eq_some_iff.mp hget
  refine List.mem_dedup.mpr (List.mem_map_of_mem (List.mem_append.mpr ?_))
  rcases Option.or_eq_some_iff.mp hlookup with hoverlay | ⟨-, hstore⟩
  · exact .inr (Overlay.get_mem hoverlay).1
  · exact .inl (Store.mem_blocks_of_get hstore)

theorem length_knownHeaders_le (i : Index) : i.knownHeaders.length ≤ i.knownCount := by
  have hle := (List.dedup_sublist ((i.store.blocks ++ i.mode.overlay.entries).map
    (·.header))).length_le
  rwa [List.length_map, List.length_append] at hle

/-- From no known header does the way back from keystone to keystone come to a header twice. -/
def NeverComesBack (i : Index) : Prop :=
  ∀ h ∈ i.knownHeaders, ∀ m n x, steps (headerBack i.lookup) m (some h) = some x →
    steps (headerBack i.lookup) n (some h) = some x → m = n

theorem NeverComesBack.endsWithin (hnever : i.NeverComesBack) (hh : h ∈ i.knownHeaders) :
    EndsWithin i.lookup i.knownHeaders.length h :=
  steps_eq_none_of_once _ (fun _ _ _ ↦ mem_knownHeaders_of_get) hh (hnever h hh)

/-- Two known headers are compared in at most twice as many rounds as there are known headers, if
no way back comes to a header twice.  That bound is less than the one on the steps of the walk, which
therefore comes out as it would without one. -/
theorem fork_walk_ends (hnever : i.NeverComesBack) {head candidate : Entry}
    (hhead : head.header ∈ i.knownHeaders) (hcandidate : candidate.header ∈ i.knownHeaders) :
    ∃ n o, n ≤ 2 * i.knownHeaders.length ∧ Rounds i.lookup (start head candidate) n o ∧
      run i.lookup i.forkSteps (start head candidate) = o := by
  obtain ⟨n, hn, o, hrounds⟩ := exists_rounds (w := start head candidate)
    (hnever.endsWithin hhead) (hnever.endsWithin hcandidate)
  refine ⟨n, o, by omega, hrounds, hrounds.ends _ ?_⟩
  have hle := i.length_knownHeaders_le
  calc
    n ≤ i.knownCount * i.knownCount + 2 * i.knownCount + 1 := by omega
    _ = i.forkSteps := by unfold forkSteps; ring

/-! ## A keystone that is higher than the header that goes back to it -/

theorem misplaced_neverComesBack : misplaced.NeverComesBack := by
  intro h hh m n x
  refine once_of_rank_lt _ [genesis, leap, secondLeap, backwardLeap, heavyStep].idxOf
    (fun _ _ _ ↦ mem_knownHeaders_of_get) ?_ hh
  decide +kernel

/-- The keystone that is gone back to from height 20 is at height 40. -/
theorem backward_walk_ends :
    misplaced.Reachable .testnet ∧ misplaced.knownHeaders.length = 5 ∧
      misplaced.NeverComesBack ∧ heavyEntry.header ∈ misplaced.knownHeaders ∧
      backwardEntry.header ∈ misplaced.knownHeaders ∧
      headerBack misplaced.lookup backwardLeap = some secondLeap ∧
      backwardLeap.height < secondLeap.height ∧
      ∃ n o, n ≤ 2 * 5 ∧ Rounds misplaced.lookup (start heavyEntry backwardEntry) n o ∧
        run misplaced.lookup misplaced.forkSteps (start heavyEntry backwardEntry) = o := by
  have hlength : misplaced.knownHeaders.length = 5 := by decide +kernel
  have hheavy : heavyEntry.header ∈ misplaced.knownHeaders := by decide +kernel
  have hbackward : backwardEntry.header ∈ misplaced.knownHeaders := by decide +kernel
  have hends := fork_walk_ends misplaced_neverComesBack hheavy hbackward
  rw [hlength] at hends
  exact ⟨reachable_misplaced, hlength, misplaced_neverComesBack, hheavy, hbackward,
    by decide +kernel, by decide, hends⟩

end Index

end EndorsedChain
