import EndorsedChain.Proofs.Fork.Halting

/-!
# How two cursors come down their chains

A cursor goes down from keystone to keystone.  Its positions are numbered by their keystones, and
the tip of a chain, if it is no keystone, comes right above the highest one.  Two cursors above
the same genesis meet at a keystone, with one exception: a tip in the first period has the
keystone index of the genesis below it, so a cursor that stands on the genesis while the other
one is still on such a tip is taken a step too far.
-/

namespace EndorsedChain

open VeriBlock

/-- The positions of a cursor: `entry p` is the keystone at height `20 * p` up to the highest one,
`top`, and the tip is at `start`, which is `top` if it is a keystone. -/
structure Descent (lookup : VBlake → Option Entry) (entry : Nat → Entry) (top start : Nat) :
    Prop where
  start_eq : start = top ∨ start = top + 1
  keystone : ∀ p ≤ top, (entry p).height.toNat = 20 * p
  tip : start = top + 1 → 20 * top < (entry start).height.toNat ∧
    (entry start).height.toNat < 20 * (top + 1)
  next : ∀ p < start, lookup (entry (p + 1)).header.effectivePreviousKeystone = some (entry p)

/-- The keystones that a cursor has come across, the highest one first. -/
def visited (entry : Nat → Entry) (top p : Nat) : List Entry :=
  ((List.range' p (top + 1 - p)).map entry).reverse

theorem visited_append {entry : Nat → Entry} {top p : Nat} (hp : p ≤ top) :
    visited entry top (p + 1) ++ [entry p] = visited entry top p := by
  unfold visited
  rw [show top + 1 - p = top + 1 - (p + 1) + 1 by omega, List.range'_succ, List.map_cons,
    List.reverse_cons]

namespace Descent

variable {lookup : VBlake → Option Entry} {entry : Nat → Entry} {top start p : Nat}

theorem keystoneIndex (h : Descent lookup entry top start) (hp : p ≤ start) :
    (entry p).keystoneIndex = min p top := by
  have hindex : (entry p).keystoneIndex = (entry p).height.toNat / 20 := rfl
  rw [hindex]
  by_cases htop : p ≤ top
  · rw [h.keystone p htop]
    omega
  · have hstart : start = top + 1 := by have := h.start_eq; omega
    obtain rfl : p = start := by omega
    have htip := h.tip hstart
    omega

theorem height_mod_eq_zero_iff (h : Descent lookup entry top start) (hp : p ≤ start) :
    (entry p).height.toNat % 20 = 0 ↔ p ≤ top := by
  by_cases htop : p ≤ top
  · rw [h.keystone p htop]
    omega
  · have hstart : start = top + 1 := by have := h.start_eq; omega
    obtain rfl : p = start := by omega
    have htip := h.tip hstart
    omega

end Descent

namespace ForkWalk

variable {lookup : VBlake → Option Entry}

/-! ## Swapping the cursors -/

def swap (w : ForkWalk) : ForkWalk := ⟨w.candidate, w.incumbent, w.candidates, w.incumbents⟩

def Outcome.swap : Outcome → Outcome
  | .met w => .met w.swap
  | .lost => .lost
  | .unfinished => .unfinished

theorem step_swap (lookup : VBlake → Option Entry) (w : ForkWalk) :
    w.swap.step lookup = (w.step lookup).map swap := by
  rw [step_eq, step_eq]
  unfold swap
  dsimp only
  rcases Nat.lt_trichotomy w.incumbent.keystoneIndex w.candidate.keystoneIndex with hlt | heq | hlt
  · rw [if_pos hlt, if_neg (Nat.lt_asymm hlt), if_pos hlt, Option.map_map]
    rfl
  · rw [if_neg (by omega), if_neg (by omega), if_neg (by omega), if_neg (by omega)]
    cases lookup w.incumbent.header.effectivePreviousKeystone <;>
      cases lookup w.candidate.header.effectivePreviousKeystone <;> rfl
  · rw [if_neg (Nat.lt_asymm hlt), if_pos hlt, if_pos hlt, Option.map_map]
    rfl

/-- Neither side is treated differently. -/
theorem run_swap (lookup : VBlake → Option Entry) (n : Nat) (w : ForkWalk) :
    run lookup n w.swap = (run lookup n w).swap := by
  induction n generalizing w with
  | zero =>
    by_cases hmet : w.incumbent.hash = w.candidate.hash
    · rw [run_of_met hmet, run_of_met (w := w.swap) hmet.symm]
      rfl
    · rw [run_zero hmet, run_zero (w := w.swap) (Ne.symm hmet)]
      rfl
  | succ n ih =>
    by_cases hmet : w.incumbent.hash = w.candidate.hash
    · rw [run_of_met hmet, run_of_met (w := w.swap) hmet.symm]
      rfl
    have hswap := step_swap lookup w
    cases hstep : w.step lookup with
    | none =>
      rw [hstep] at hswap
      rw [run_of_step_none hmet hstep, run_of_step_none (Ne.symm hmet) hswap]
      rfl
    | some next =>
      rw [hstep] at hswap
      rw [run_of_step_some hmet hstep, run_of_step_some (Ne.symm hmet) hswap, ih]

/-! ## Where a walk ends -/

/-- How a walk comes out, given `fuel` steps or more. -/
def Ends (lookup : VBlake → Option Entry) (w : ForkWalk) (fuel : Nat) (o : Outcome) : Prop :=
  ∀ n, fuel ≤ n → run lookup n w = o

theorem Ends.met {w : ForkWalk} (h : w.incumbent.hash = w.candidate.hash) (fuel : Nat) :
    Ends lookup w fuel (.met w) := fun n _ ↦ run_of_met h n

theorem Ends.lost {w : ForkWalk} (h : w.incumbent.hash ≠ w.candidate.hash)
    (hstep : w.step lookup = none) (fuel : Nat) : Ends lookup w (fuel + 1) .lost := by
  intro n hn
  obtain ⟨k, rfl⟩ := Nat.exists_eq_add_of_le' (Nat.le_trans (Nat.le_add_left 1 fuel) hn)
  exact run_of_step_none h hstep k

theorem Ends.step {w next : ForkWalk} {fuel : Nat} {o : Outcome}
    (h : w.incumbent.hash ≠ w.candidate.hash) (hstep : w.step lookup = some next)
    (hends : Ends lookup next fuel o) : Ends lookup w (fuel + 1) o := by
  intro n hn
  obtain ⟨k, rfl⟩ := Nat.exists_eq_add_of_le' (Nat.le_trans (Nat.le_add_left 1 fuel) hn)
  rw [run_of_step_some h hstep]
  exact hends k (by omega)

theorem Ends.mono {w : ForkWalk} {m n : Nat} {o : Outcome} (h : Ends lookup w m o) (hle : m ≤ n) :
    Ends lookup w n o := fun k hk ↦ h k (Nat.le_trans hle hk)

theorem Ends.swap {w : ForkWalk} {n : Nat} {o : Outcome} (h : Ends lookup w n o) :
    Ends lookup w.swap n o.swap := by
  intro k hk
  rw [run_swap, h k hk]

/-- The walk with cursors at given positions. -/
def between (a b : Nat → Entry) (top top' p q : Nat) : ForkWalk :=
  ⟨a p, b q, visited a top p, visited b top' q⟩

section Meeting

variable {a b : Nat → Entry} {top top' start start' p q : Nat}

theorem swap_between : (between a b top top' p q).swap = between b a top' top q p := rfl

theorem step_incumbent (ha : Descent lookup a top start) (hp : p < start)
    (hlt : (b q).keystoneIndex < (a (p + 1)).keystoneIndex) :
    (between a b top top' (p + 1) q).step lookup = some (between a b top top' p q) := by
  have hle : p ≤ top := by have := ha.start_eq; omega
  rw [step_eq, between, if_pos hlt, ha.next p hp, Option.map_some, visited_append hle]
  rfl

theorem step_candidate (hb : Descent lookup b top' start') (hq : q < start')
    (hlt : (a p).keystoneIndex < (b (q + 1)).keystoneIndex) :
    (between a b top top' p (q + 1)).step lookup = some (between a b top top' p q) := by
  rw [← swap_between, step_swap, step_incumbent hb hq hlt]
  rfl

theorem step_both (ha : Descent lookup a top start) (hb : Descent lookup b top' start')
    (hp : p < start) (hq : q < start')
    (heq : (a (p + 1)).keystoneIndex = (b (q + 1)).keystoneIndex) :
    (between a b top top' (p + 1) (q + 1)).step lookup = some (between a b top top' p q) := by
  have hle : p ≤ top := by have := ha.start_eq; omega
  have hle' : q ≤ top' := by have := hb.start_eq; omega
  rw [step_eq, between, if_neg (Nat.not_lt.mpr (Nat.le_of_eq heq)),
    if_neg (Nat.not_lt.mpr (Nat.le_of_eq heq.symm)), ha.next p hp, hb.next q hq,
    Option.bind_some, Option.map_some, visited_append hle, visited_append hle']
  rfl

/-- A cursor on the genesis cannot go on. -/
theorem step_below_genesis (hbottom : lookup (b 0).header.effectivePreviousKeystone = none)
    (heq : (a p).keystoneIndex = (b 0).keystoneIndex) :
    (between a b top top' p 0).step lookup = none := by
  rw [step_eq, between, if_neg (Nat.not_lt.mpr (Nat.le_of_eq heq)),
    if_neg (Nat.not_lt.mpr (Nat.le_of_eq heq.symm)), hbottom]
  cases lookup (a p).header.effectivePreviousKeystone <;> rfl

/-- Two ways down to one genesis, on which hashes tell headers apart. -/
structure Descents (lookup : VBlake → Option Entry) (a b : Nat → Entry)
    (top top' start start' : Nat) : Prop where
  left : Descent lookup a top start
  right : Descent lookup b top' start'
  header_eq : ∀ p ≤ start, ∀ q ≤ start', (a p).hash = (b q).hash → (a p).header = (b q).header
  genesis : (a 0).hash = (b 0).hash

namespace Descents

variable (h : Descents lookup a b top top' start start')

include h

theorem symm : Descents lookup b a top' top start' start where
  left := h.right
  right := h.left
  header_eq p hp q hq heq := (h.header_eq q hq p hp heq.symm).symm
  genesis := h.genesis.symm

theorem height_eq (hp : p ≤ start) (hq : q ≤ start') (heq : (a p).hash = (b q).hash) :
    (a p).height.toNat = (b q).height.toNat :=
  congrArg (fun h : Header ↦ h.height.toNat) (h.header_eq p hp q hq heq)

/-- Keystones at different positions are different. -/
theorem hash_ne_of_ne (hp : p ≤ start) (hq : q ≤ start') (hptop : p ≤ top) (hqtop : q ≤ top')
    (hne : p ≠ q) : (a p).hash ≠ (b q).hash := by
  intro heq
  have hheight := h.height_eq hp hq heq
  rw [h.left.keystone p hptop, h.right.keystone q hqtop] at hheight
  omega

/-- A tip that is no keystone is different from all keystones. -/
theorem hash_ne_of_tip (hq : q ≤ start') (hqtop : q ≤ top') (hstart : start = top + 1) :
    (a start).hash ≠ (b q).hash := by
  intro heq
  have hheight := h.height_eq (Nat.le_refl _) hq heq
  have hmod := h.left.height_mod_eq_zero_iff (Nat.le_refl start)
  rw [hheight, h.right.height_mod_eq_zero_iff hq] at hmod
  omega

/-- From two keystones the cursors meet. -/
theorem meet_of_keystones (hp : p ≤ start) (hq : q ≤ start') (hptop : p ≤ top)
    (hqtop : q ≤ top') : ∃ m ≤ top, m ≤ top' ∧ (a m).hash = (b m).hash ∧
      Ends lookup (between a b top top' p q) (p + q) (.met (between a b top top' m m)) := by
  induction hn : p + q using Nat.strong_induction_on generalizing p q with
  | _ n ih =>
    have hindex := h.left.keystoneIndex hp
    have hindex' := h.right.keystoneIndex hq
    by_cases hmet : (a p).hash = (b q).hash
    · obtain rfl : p = q := by
        by_contra hne
        exact h.hash_ne_of_ne hp hq hptop hqtop hne hmet
      exact ⟨p, hptop, hqtop, hmet, .met hmet _⟩
    rcases Nat.lt_trichotomy p q with hlt | rfl | hlt
    · obtain ⟨q, rfl⟩ : ∃ k, q = k + 1 := Nat.exists_eq_add_one_of_ne_zero (by omega)
      obtain ⟨m, hm, hm', hhash, hends⟩ :=
        ih (p + q) (by omega) (by omega) (by omega) (by omega) (by omega) rfl
      refine ⟨m, hm, hm', hhash, (hends.step hmet ?_).mono (by omega)⟩
      exact step_candidate h.right (by omega) (by omega)
    · obtain ⟨p, rfl⟩ : ∃ k, p = k + 1 :=
        Nat.exists_eq_add_one_of_ne_zero fun hzero ↦ hmet (hzero ▸ h.genesis)
      obtain ⟨m, hm, hm', hhash, hends⟩ :=
        ih (p + p) (by omega) (by omega) (by omega) (by omega) (by omega) rfl
      refine ⟨m, hm, hm', hhash, (hends.step hmet ?_).mono (by omega)⟩
      exact step_both h.left h.right (by omega) (by omega) (by omega)
    · obtain ⟨p, rfl⟩ : ∃ k, p = k + 1 := Nat.exists_eq_add_one_of_ne_zero (by omega)
      obtain ⟨m, hm, hm', hhash, hends⟩ :=
        ih (p + q) (by omega) (by omega) (by omega) (by omega) (by omega) rfl
      refine ⟨m, hm, hm', hhash, (hends.step hmet ?_).mono (by omega)⟩
      exact step_incumbent h.left (by omega) (by omega)

theorem meet_of_tip_of_le (hstart : start = top + 1) (htop : top ≠ 0) (hq : q ≤ start')
    (hqtop : q ≤ top') (hle : q ≤ top) : ∃ m ≤ top, m ≤ top' ∧ (a m).hash = (b m).hash ∧
      Ends lookup (between a b top top' start q) (start + q) (.met (between a b top top' m m)) := by
  subst hstart
  have hne : (a (top + 1)).hash ≠ (b q).hash := h.hash_ne_of_tip hq hqtop rfl
  have hindex := h.left.keystoneIndex (Nat.le_refl (top + 1))
  have hindex' := h.right.keystoneIndex hq
  rcases Nat.lt_or_eq_of_le hle with hlt | rfl
  · obtain ⟨m, hm, hm', hhash, hends⟩ :=
      h.meet_of_keystones (Nat.le_succ top) hq (Nat.le_refl top) hqtop
    refine ⟨m, hm, hm', hhash, (hends.step hne ?_).mono (by omega)⟩
    exact step_incumbent h.left (by omega) (by omega)
  · -- both cursors go down, although only the candidate stands on a keystone
    obtain ⟨k, rfl⟩ : ∃ k, q = k + 1 := Nat.exists_eq_add_one_of_ne_zero htop
    obtain ⟨m, hm, hm', hhash, hends⟩ :=
      h.meet_of_keystones (q := k) (Nat.le_succ (k + 1)) (by omega) (Nat.le_refl _) (by omega)
    refine ⟨m, hm, hm', hhash, (hends.step hne ?_).mono (by omega)⟩
    exact step_both h.left h.right (by omega) (by omega) (by omega)

/-- A cursor that starts above a keystone meets one that has come to a keystone, unless it starts
in the first period. -/
theorem meet_of_tip (hstart : start = top + 1) (htop : top ≠ 0) (hq : q ≤ start')
    (hqtop : q ≤ top') : ∃ m ≤ top, m ≤ top' ∧ (a m).hash = (b m).hash ∧
      Ends lookup (between a b top top' start q) (start + q) (.met (between a b top top' m m)) := by
  induction q with
  | zero => exact h.meet_of_tip_of_le hstart htop hq hqtop (Nat.zero_le top)
  | succ q ih =>
    by_cases hle : q + 1 ≤ top
    · exact h.meet_of_tip_of_le hstart htop hq hqtop hle
    · have hindex := h.left.keystoneIndex (Nat.le_refl start)
      have hindex' := h.right.keystoneIndex hq
      obtain ⟨m, hm, hm', hhash, hends⟩ := ih (by omega) (by omega)
      refine ⟨m, hm, hm', hhash, (hends.step (h.hash_ne_of_tip hq hqtop hstart) ?_).mono (by omega)⟩
      exact step_candidate h.right (by omega) (by omega)

/-- A cursor that starts in the first period, above the genesis, drives the other one below the
genesis. -/
theorem lost_of_tip (hbottom : lookup (b 0).header.effectivePreviousKeystone = none)
    (hstart : start = top + 1) (htop : top = 0) (hq : q ≤ start') (hqtop : q ≤ top') :
    Ends lookup (between a b top top' start q) (q + 1) .lost := by
  subst hstart
  have hne {q : Nat} (hq : q ≤ start') (hqtop : q ≤ top') : (a (top + 1)).hash ≠ (b q).hash :=
    h.hash_ne_of_tip hq hqtop rfl
  have hindex := h.left.keystoneIndex (Nat.le_refl (top + 1))
  induction q with
  | zero =>
    have hindex' := h.right.keystoneIndex hq
    exact .lost (hne hq hqtop) (step_below_genesis hbottom (by omega)) 0
  | succ q ih =>
    have hindex' := h.right.keystoneIndex hq
    refine (ih (by omega) (by omega)).step (hne hq hqtop) ?_
    exact step_candidate h.right (by omega) (by omega)

/-- Of two different tips above keystones, neither is in the first period or both are. -/
theorem meet_of_tips (hne : (a start).hash ≠ (b start').hash) (hstart : start = top + 1)
    (hstart' : start' = top' + 1) (hfirst : top = 0 ↔ top' = 0) :
    ∃ m ≤ top, m ≤ top' ∧ (a m).hash = (b m).hash ∧
      Ends lookup (between a b top top' start start') (start + start')
        (.met (between a b top top' m m)) := by
  have hindex := h.left.keystoneIndex (Nat.le_refl start)
  have hindex' := h.right.keystoneIndex (Nat.le_refl start')
  subst hstart
  subst hstart'
  rcases Nat.lt_trichotomy top top' with hlt | rfl | hlt
  · obtain ⟨m, hm, hm', hhash, hends⟩ :=
      h.meet_of_tip rfl (by omega) (Nat.le_succ top') (Nat.le_refl top')
    refine ⟨m, hm, hm', hhash, (hends.step hne ?_).mono (by omega)⟩
    exact step_candidate h.right (by omega) (by omega)
  · obtain ⟨m, hm, hm', hhash, hends⟩ :=
      h.meet_of_keystones (Nat.le_succ top) (Nat.le_succ top) (Nat.le_refl top) (Nat.le_refl top)
    refine ⟨m, hm, hm', hhash, (hends.step hne ?_).mono (by omega)⟩
    exact step_both h.left h.right (by omega) (by omega) (by omega)
  · obtain ⟨m, hm, hm', hhash, hends⟩ :=
      h.symm.meet_of_tip rfl (by omega) (Nat.le_succ top) (Nat.le_refl top)
    refine ⟨m, hm', hm, hhash.symm, (Ends.step hne ?_ hends.swap).mono (by omega)⟩
    exact step_incumbent h.left (by omega) (by omega)

/-- Two cursors meet, unless exactly one of them starts in the first period. -/
theorem meet (hne : (a start).hash ≠ (b start').hash)
    (hfirst : top = 0 ∧ start = 1 ↔ top' = 0 ∧ start' = 1) :
    ∃ m ≤ top, m ≤ top' ∧ (a m).hash = (b m).hash ∧
      Ends lookup (between a b top top' start start') (start + start')
        (.met (between a b top top' m m)) := by
  rcases h.left.start_eq with rfl | hstart <;> rcases h.right.start_eq with rfl | hstart'
  · exact h.meet_of_keystones (Nat.le_refl _) (Nat.le_refl _) (Nat.le_refl _) (Nat.le_refl _)
  · obtain ⟨m, hm, hm', hhash, hends⟩ :=
      h.symm.meet_of_tip hstart' (by omega) (Nat.le_refl _) (Nat.le_refl _)
    exact ⟨m, hm', hm, hhash.symm, hends.swap.mono (by omega)⟩
  · exact h.meet_of_tip hstart (by omega) (Nat.le_refl _) (Nat.le_refl _)
  · exact h.meet_of_tips hne hstart hstart' (by omega)

/-- If only the one cursor starts in the first period, the walk gives up. -/
theorem lost (hne : (a start).hash ≠ (b start').hash)
    (hbottom : lookup (b 0).header.effectivePreviousKeystone = none)
    (hfirst : top = 0 ∧ start = 1) (hother : ¬(top' = 0 ∧ start' = 1)) :
    Ends lookup (between a b top top' start start') (start + start' + 1) .lost := by
  have hstart : start = top + 1 := by omega
  rcases h.right.start_eq with rfl | hstart'
  · exact (h.lost_of_tip hbottom hstart hfirst.1 (Nat.le_refl _) (Nat.le_refl _)).mono (by omega)
  · have hindex := h.left.keystoneIndex (Nat.le_refl start)
    have hindex' := h.right.keystoneIndex (Nat.le_refl start')
    subst hstart'
    have hends := h.lost_of_tip hbottom hstart hfirst.1 (Nat.le_succ top') (Nat.le_refl top')
    refine (hends.step hne ?_).mono (by omega)
    exact step_candidate h.right (by omega) (by omega)

end Descents

end Meeting

end ForkWalk

end EndorsedChain
