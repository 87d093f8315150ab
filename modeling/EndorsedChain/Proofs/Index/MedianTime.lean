import EndorsedChain.Index.Checks
import Mathlib.Data.List.Nodup

/-!
# The median time past, by counting

A timestamp is compared with the tenth smallest one of the highest headers of a context.  Which
headers these are is told by how many others come before each (`highest`), and a timestamp is above
the tenth smallest one if at least ten are below it.
-/

namespace EndorsedChain

open VeriBlock

/-! ## Positions in a sorted list -/

section Sorted

variable {α : Type} {l : List α} {k : Nat}

/-- The elements with a property come first exactly up to their number. -/
theorem getElem_iff_lt_countP {p : α → Bool} (h : l.Pairwise fun a b ↦ p b = true → p a = true)
    (hk : k < l.length) : p l[k] = true ↔ k < l.countP p := by
  induction l generalizing k with
  | nil => exact absurd hk (Nat.not_lt_zero k)
  | cons a l ih =>
    rw [List.pairwise_cons] at h
    cases ha : p a with
    | true =>
      rw [List.countP_cons_of_pos ha]
      cases k with
      | zero => exact iff_of_true ha (Nat.succ_pos _)
      | succ k => exact (ih h.2 (Nat.lt_of_succ_lt_succ hk)).trans Nat.succ_lt_succ_iff.symm
    | false =>
      have hnone : ∀ b ∈ a :: l, ¬p b = true := by
        rintro b hb hpb
        rcases List.mem_cons.mp hb with rfl | hb
        · rw [ha] at hpb
          cases hpb
        · rw [h.1 b hb hpb] at ha
          cases ha
      rw [List.countP_eq_zero.mpr hnone]
      exact iff_of_false (hnone _ (List.getElem_mem hk)) (Nat.not_lt_zero k)

/-- The first elements are those that fewer others come before. -/
theorem take_eq_filter_countP {R : α → α → Prop} [DecidableRel R] (hasymm : ∀ a b, R a b → ¬R b a)
    (h : l.Pairwise R) (n : Nat) : l.take n = l.filter fun b ↦ l.countP (R · b) < n := by
  induction l generalizing n with
  | nil => rw [List.take_nil, List.filter_nil]
  | cons a l ih =>
    rw [List.pairwise_cons] at h
    cases n with
    | zero => exact (List.filter_eq_nil_iff.mpr fun b _ ↦ by simp).symm
    | succ n =>
      have hfirst : (a :: l).countP (R · a) = 0 := by
        rw [List.countP_eq_zero]
        intro b hb
        rcases List.mem_cons.mp hb with rfl | hb
        · simpa using fun hself ↦ hasymm b b hself hself
        · simpa using hasymm a b (h.1 b hb)
      have hrest : ∀ b ∈ l, (a :: l).countP (R · b) = l.countP (R · b) + 1 := fun b hb ↦
        List.countP_cons_of_pos (decide_eq_true (h.1 b hb))
      rw [List.take_succ_cons, List.filter_cons_of_pos (by simp [hfirst]), ih h.2]
      congr 1
      refine List.filter_congr fun b hb ↦ ?_
      rw [hrest b hb, decide_eq_decide]
      exact Nat.succ_lt_succ_iff.symm

end Sorted

/-! ## The highest headers -/

/-- Whether an entry at its position in a context comes before another one in order of height: of
two that are as high, the earlier one does. -/
def Outranks (x y : Entry × Nat) : Prop :=
  y.1.height < x.1.height ∨ x.1.height = y.1.height ∧ x.2 < y.2

instance (x y : Entry × Nat) : Decidable (Outranks x y) := inferInstanceAs (Decidable (_ ∨ _))

/-- The entries of a context that fewer than `count` others come before in order of height. -/
def highest (count : Nat) (context : List Entry) : List Entry :=
  (context.zipIdx.filter fun x ↦ context.zipIdx.countP (Outranks · x) < count).map (·.1)

/-- The order in which a context is sorted. -/
def notBelow (a b : Entry) : Bool := decide (b.height ≤ a.height)

variable {context : List Entry} {x y : Entry × Nat}

theorem notBelow_trans (a b c : Entry) (hab : notBelow a b = true) (hbc : notBelow b c = true) :
    notBelow a c = true :=
  decide_eq_true (UInt32.le_trans (of_decide_eq_true hbc) (of_decide_eq_true hab))

theorem notBelow_total (a b : Entry) : (notBelow a b || notBelow b a) = true := by
  simpa [notBelow] using UInt32.le_total b.height a.height

theorem Outranks.asymm (h : Outranks x y) : ¬Outranks y x := by
  rintro (hlt | ⟨heq, hpos⟩)
  · rcases h with hlt' | ⟨heq', -⟩
    · exact UInt32.lt_asymm hlt hlt'
    · exact UInt32.ne_of_lt hlt heq'
  · rcases h with hlt' | ⟨-, hpos'⟩
    · exact UInt32.ne_of_lt hlt' heq
    · exact Nat.lt_asymm hpos hpos'

theorem outranks_of_zipIdxLE (h : List.zipIdxLE notBelow x y = true) (hne : x.2 ≠ y.2) :
    Outranks x y := by
  unfold List.zipIdxLE notBelow at h
  simp only [decide_eq_true_eq] at h
  split_ifs at h with hle hge
  · exact .inr ⟨UInt32.le_antisymm hge hle, Nat.lt_of_le_of_ne (of_decide_eq_true h) hne⟩
  · exact .inl (UInt32.not_le.mp hge)

/-- The order in which a stable sort leaves the positions of a context. -/
theorem pairwise_outranks (context : List Entry) :
    (context.zipIdx.mergeSort (List.zipIdxLE notBelow)).Pairwise Outranks := by
  have hnodup : (context.zipIdx.map Prod.snd).Nodup := by
    rw [List.zipIdx_map_snd]
    exact List.nodup_range' 1
  have hpositions := List.pairwise_map.mp
    (((List.mergeSort_perm context.zipIdx (List.zipIdxLE notBelow)).map Prod.snd).nodup_iff.mpr
      hnodup)
  exact (List.pairwise_mergeSort (List.zipIdxLE_trans notBelow_trans)
    (List.zipIdxLE_total notBelow_total) _).imp₂ (fun _ _ ↦ outranks_of_zipIdxLE) hpositions

theorem take_mergeSort_perm (n : Nat) (context : List Entry) :
    ((context.mergeSort notBelow).take n).Perm (highest n context) := by
  have hperm := List.mergeSort_perm context.zipIdx (List.zipIdxLE notBelow)
  rw [← List.mergeSort_zipIdx, ← List.map_take, highest,
    take_eq_filter_countP (fun _ _ ↦ Outranks.asymm) (pairwise_outranks context)]
  simp only [hperm.countP_eq]
  exact (hperm.filter _).map _

theorem length_highest (n : Nat) (context : List Entry) :
    (highest n context).length = min n context.length := by
  rw [← (take_mergeSort_perm n context).length_eq, List.length_take, List.length_mergeSort]

/-- Along a chain whose heights decrease, the first headers are the highest. -/
theorem highest_of_pairwise (h : context.Pairwise fun a b ↦ b.height < a.height) (n : Nat) :
    highest n context = context.take n := by
  have hheights : (context.zipIdx.map Prod.fst).Pairwise fun a b ↦ b.height < a.height := by
    rwa [List.zipIdx_map_fst]
  have hpairwise : context.zipIdx.Pairwise Outranks := (List.pairwise_map.mp hheights).imp .inl
  rw [highest, ← take_eq_filter_countP (fun _ _ ↦ Outranks.asymm) hpairwise, List.map_take,
    List.zipIdx_map_fst]

/-! ## The median -/

theorem recentTimestamps_perm (context : List Entry) :
    (recentTimestamps context).Perm ((highest 20 context).map (·.header.timestamp)) :=
  (List.mergeSort_perm _ _).trans ((take_mergeSort_perm 20 context).map _)

theorem pairwise_recentTimestamps (context : List Entry) :
    (recentTimestamps context).Pairwise (· ≤ ·) := by
  refine (List.pairwise_mergeSort (fun a b c hab hbc ↦ ?_) (fun a b ↦ ?_) _).imp of_decide_eq_true
  · exact decide_eq_true (UInt32.le_trans (of_decide_eq_true hab) (of_decide_eq_true hbc))
  · simpa using UInt32.le_total a b

/-- What holds of all smaller timestamps too holds of the median if it holds of ten. -/
theorem medianTimePast_iff (hlength : 20 ≤ context.length) {p : UInt32 → Bool}
    (hp : ∀ a b, a ≤ b → p b = true → p a = true) :
    p (medianTimePast context) = true ↔ 10 ≤ (highest 20 context).countP (p ·.header.timestamp) := by
  have hperm := recentTimestamps_perm context
  have hk : 9 < (recentTimestamps context).length := by
    rw [hperm.length_eq, List.length_map, length_highest]
    omega
  have hmedian : medianTimePast context = (recentTimestamps context)[9] := by
    rw [medianTimePast, List.getD_eq_getElem?_getD]
    exact congrArg (Option.getD · 0) (List.getElem?_eq_getElem hk)
  rw [hmedian, getElem_iff_lt_countP ((pairwise_recentTimestamps context).imp (hp _ _)) hk,
    hperm.countP_eq, List.countP_map]
  exact Iff.rfl

theorem medianTimePast_lt_iff (hlength : 20 ≤ context.length) (t : UInt32) :
    medianTimePast context < t ↔ 10 ≤ (highest 20 context).countP (·.header.timestamp < t) := by
  rw [← medianTimePast_iff hlength (p := fun a ↦ decide (a < t)) fun a b hab hb ↦
    decide_eq_true (UInt32.lt_of_le_of_lt hab (of_decide_eq_true hb)), decide_eq_true_eq]

theorem medianTimePast_le_iff (hlength : 20 ≤ context.length) (t : UInt32) :
    medianTimePast context ≤ t ↔ 10 ≤ (highest 20 context).countP (·.header.timestamp ≤ t) := by
  rw [← medianTimePast_iff hlength (p := fun a ↦ decide (a ≤ t)) fun a b hab hb ↦
    decide_eq_true (UInt32.le_trans hab (of_decide_eq_true hb)), decide_eq_true_eq]

/-! ## The check -/

variable {h : Header} {error : VerificationError}

theorem checkTimestamp_eq_ok_iff : checkTimestamp h context = .ok () ↔
    context.length < 20 ∨ medianTimePast context < h.timestamp := by
  unfold checkTimestamp medianWindow
  dsimp only
  split_ifs with hshort hold
  · exact iff_of_true rfl (.inl hshort)
  · exact iff_of_false nofun (not_or_intro hshort (UInt32.not_lt.mpr hold))
  · exact iff_of_true rfl (.inr (UInt32.not_le.mp hold))

theorem checkTimestamp_eq_error (herror : checkTimestamp h context = .error error) :
    20 ≤ context.length ∧ error = .timestampTooOld h.timestamp (medianTimePast context) := by
  unfold checkTimestamp medianWindow at herror
  dsimp only at herror
  split_ifs at herror with hshort hold
  cases herror
  exact ⟨Nat.le_of_not_lt hshort, rfl⟩

/-- A header passes if there are fewer than twenty before it, or if at least half of the twenty
highest ones are older than it is.  Otherwise the error names the tenth smallest timestamp. -/
theorem passes_iff_half_is_older (h : Header) (context : List Entry) :
    (checkTimestamp h context = .ok () ↔ context.length < 20 ∨
      10 ≤ (highest 20 context).countP (·.header.timestamp < h.timestamp)) ∧
    (20 ≤ context.length → (highest 20 context).length = 20) ∧
    (context.Pairwise (fun a b ↦ b.height < a.height) →
      highest 20 context = context.take 20) ∧
    ∀ error, checkTimestamp h context = .error error → ∃ median,
      error = .timestampTooOld h.timestamp median ∧
      (highest 20 context).countP (·.header.timestamp < median) < 10 ∧
      10 ≤ (highest 20 context).countP (·.header.timestamp ≤ median) := by
  refine ⟨?_, fun hlength ↦ ?_, fun hpairwise ↦ highest_of_pairwise hpairwise 20, ?_⟩
  · rw [checkTimestamp_eq_ok_iff]
    refine or_congr_right' fun hlong ↦ ?_
    exact medianTimePast_lt_iff (Nat.le_of_not_lt hlong) h.timestamp
  · rw [length_highest, Nat.min_eq_left hlength]
  · intro error herror
    obtain ⟨hlength, rfl⟩ := checkTimestamp_eq_error herror
    refine ⟨medianTimePast context, rfl, Nat.lt_of_not_le fun hten ↦ ?_, ?_⟩
    · exact UInt32.lt_irrefl _ ((medianTimePast_lt_iff hlength _).mpr hten)
    · exact (medianTimePast_le_iff hlength _).mp (UInt32.le_refl _)

end EndorsedChain
