import EndorsedChain.Index.Checks
import EndorsedChain.Proofs.Difficulty.Quotient
import Mathlib.Data.List.Chain

/-!
# Retargeting steady chains

Where each header comes at the intended time after the one before and all have the same work, the
weighted solve times add up to what was expected, so retargeting gives this work back.  Headers that
come at increasing times are later than the median of the times before them.
-/

namespace EndorsedChain

open VeriBlock

variable {params : NetworkParameters} {work : Nat}

/-! ## The next difficulty -/

namespace Retarget

theorem forall_clamp_gaps {hs : List Header} {time : Int}
    (h : hs.IsChain fun older newer ↦ solveTime older newer = time) :
    ∀ gap ∈ gaps hs, clamp gap = time := by
  induction h with
  | nil | singleton => exact fun gap hgap ↦ absurd hgap List.not_mem_nil
  | cons_cons hstep _ ih => exact List.forall_mem_cons.mpr ⟨hstep, ih⟩

/-- Retargeting gives back the work of a steady chain, unless it is below the minimum. -/
theorem next_steady {context : List Header} (hlength : 2 ≤ context.length)
    (htimes : context.IsChain fun newer older ↦ solveTime older newer = 30)
    (hworks : ∀ h ∈ context, h.work = .ok work) :
    next params context = .ok (max work params.minimumDifficulty.toNat) := by
  refine next_of_steady hlength (haveWorks_replicate hworks) ?_ ?_
  · intro w hw
    exact List.eq_of_mem_replicate (List.dropLast_subset _ hw)
  · exact forall_clamp_gaps (List.isChain_reverse.mpr htimes)

end Retarget

/-! ## Checks of the context -/

section Check

variable {h : Header} {context : List Entry}

theorem checkDifficulty_eq_ok_iff (hlength : Retarget.period ≤ context.length) :
    checkDifficulty params h context = .ok () ↔
      ∃ difficulty, Retarget.next params ((context.take Retarget.period).map (·.header)) =
        .ok difficulty ∧ h.difficulty = Compact.encode difficulty := by
  unfold checkDifficulty
  rw [if_neg (Nat.not_lt.mpr hlength)]
  cases Retarget.next params ((context.take Retarget.period).map (·.header)) with
  | error e => simp [Except.mapError, bind, Except.bind]
  | ok difficulty => simp [Except.mapError, bind, Except.bind]

theorem two_le_length_recent (hlength : Retarget.period ≤ context.length) :
    2 ≤ ((context.take Retarget.period).map (·.header)).length := by
  rw [List.length_map, List.length_take, Nat.min_eq_left hlength]
  decide

theorem forall_mem_recent {p : Header → Prop} (hall : ∀ e ∈ context, p e.header) :
    ∀ x ∈ (context.take Retarget.period).map (·.header), p x := by
  intro x hx
  obtain ⟨e, he, rfl⟩ := List.mem_map.mp hx
  exact hall e (List.mem_of_mem_take he)

end Check

/-- The context of a header in a steady chain, newest header first. -/
structure SteadyContext (work : Nat) (h : Header) (context : List Entry) : Prop where
  works : ∀ e ∈ context, e.header.work = .ok work
  earlier : ∀ e ∈ context, e.header.timestamp < h.timestamp
  times : context.IsChain fun newer older ↦ Retarget.solveTime older.header newer.header = 30

namespace SteadyContext

variable {h : Header} {context : List Entry}

theorem medianTimePast_lt (hcontext : SteadyContext work h context) (hpos : 0 < h.timestamp) :
    medianTimePast context < h.timestamp := by
  have hrecent : ∀ t ∈ recentTimestamps context, t < h.timestamp := by
    intro t ht
    unfold recentTimestamps at ht
    obtain ⟨e, he, rfl⟩ := List.mem_map.mp (List.mem_mergeSort.mp ht)
    exact hcontext.earlier e (List.mem_mergeSort.mp (List.mem_of_mem_take he))
  unfold medianTimePast
  rw [List.getD_eq_getElem?_getD]
  cases hget : (recentTimestamps context)[medianWindow / 2 - 1]? with
  | none => exact hpos
  | some t => exact hrecent t (List.mem_of_getElem? hget)

theorem checkTimestamp (hcontext : SteadyContext work h context) (hpos : 0 < h.timestamp) :
    checkTimestamp h context = .ok () := by
  unfold EndorsedChain.checkTimestamp
  have hmedian := hcontext.medianTimePast_lt hpos
  split
  · rfl
  · dsimp only
    rw [if_neg (by simpa using hmedian)]

theorem checkDifficulty (hcontext : SteadyContext work h context)
    (hminimum : params.minimumDifficulty.toNat ≤ work)
    (hcanonical : Compact.encode work = h.difficulty) :
    checkDifficulty params h context = .ok () := by
  rcases Nat.lt_or_ge context.length Retarget.period with hshort | hlength
  · unfold EndorsedChain.checkDifficulty
    rw [if_pos hshort]
  · have htimes : ((context.take Retarget.period).map (·.header)).IsChain
        fun newer older ↦ Retarget.solveTime older newer = 30 :=
      (List.isChain_map _).mpr (hcontext.times.take Retarget.period)
    have hnext := @Retarget.next_steady params work _ (two_le_length_recent hlength) htimes
      (forall_mem_recent hcontext.works)
    rw [Nat.max_eq_left hminimum] at hnext
    exact (checkDifficulty_eq_ok_iff hlength).mpr ⟨work, hnext, hcanonical.symm⟩

end SteadyContext

end EndorsedChain
