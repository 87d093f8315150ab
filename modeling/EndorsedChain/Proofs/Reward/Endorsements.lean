import EndorsedChain.Reward.Endorsements
import Mathlib.Data.List.Basic
import Mathlib.Data.List.Induction
import Mathlib.Order.Nat

/-!
# Endorsements in the order of their heights

The groups of an `Endorsements` hold what was added to it, sorted by height, and those of one
height in the order in which they were added: a stable sort (`flatten_ofList`).  A stable sort is
determined by its order and by what it does to the elements of each key (`eq_of_filter_eq`).
-/

namespace EndorsedChain.Reward.Endorsements

variable {height : ℕ} {e : Endorsement} {groups : List (ℕ × List Endorsement)}
  {es : List (ℕ × Endorsement)}

/-! ## Stable sorting -/

/-- Endorsements by height, those of one height in the order given. -/
def byHeight (es : List (ℕ × Endorsement)) : List (ℕ × Endorsement) :=
  es.mergeSort fun a b ↦ decide (a.1 ≤ b.1)

theorem height_trans (a b c : ℕ × Endorsement) (hab : decide (a.1 ≤ b.1) = true)
    (hbc : decide (b.1 ≤ c.1) = true) : decide (a.1 ≤ c.1) = true :=
  decide_eq_true ((of_decide_eq_true hab).trans (of_decide_eq_true hbc))

theorem height_total (a b : ℕ × Endorsement) :
    (decide (a.1 ≤ b.1) || decide (b.1 ≤ a.1)) = true := by
  simpa using le_total a.1 b.1

theorem byHeight_perm (es : List (ℕ × Endorsement)) : (byHeight es).Perm es :=
  List.mergeSort_perm es _

theorem pairwise_byHeight (es : List (ℕ × Endorsement)) :
    (byHeight es).Pairwise fun a b ↦ a.1 ≤ b.1 := by
  have hsorted : (byHeight es).Pairwise fun a b ↦ decide (a.1 ≤ b.1) = true :=
    List.pairwise_mergeSort height_trans height_total es
  exact hsorted.imp of_decide_eq_true

theorem filter_byHeight (es : List (ℕ × Endorsement)) (k : ℕ) :
    (byHeight es).filter (·.1 = k) = es.filter (·.1 = k) := by
  have hkey : (es.filter (·.1 = k)).Pairwise fun a b ↦ decide (a.1 ≤ b.1) = true := by
    refine List.pairwise_iff_forall_sublist.mpr fun {a b} hab ↦ ?_
    have ha := List.of_mem_filter (hab.subset List.mem_cons_self)
    have hb := List.of_mem_filter (hab.subset (List.mem_cons_of_mem _ List.mem_cons_self))
    simp only [decide_eq_true_eq] at ha hb
    simp [ha, hb]
  have hsublist : List.Sublist (es.filter (·.1 = k)) (byHeight es) :=
    List.sublist_mergeSort height_trans height_total hkey List.filter_sublist
  have hfilter := hsublist.filter (·.1 = k)
  rw [List.filter_filter, show (fun a : ℕ × Endorsement ↦ decide (a.1 = k) && decide (a.1 = k)) =
    (decide <| ·.1 = k) by funext a; simp] at hfilter
  exact (hfilter.eq_of_length ((byHeight_perm es).filter _).length_eq.symm).symm

/-- Two lists in the order of their keys are the same if their elements of each key are. -/
theorem eq_of_filter_eq {l l' : List (ℕ × Endorsement)} (hl : l.Pairwise fun a b ↦ a.1 ≤ b.1)
    (hl' : l'.Pairwise fun a b ↦ a.1 ≤ b.1)
    (h : ∀ k, l.filter (·.1 = k) = l'.filter (·.1 = k)) : l = l' := by
  have hmem (a : ℕ × Endorsement) : a ∈ l ↔ a ∈ l' := by
    simpa using congrArg (a ∈ ·) (h a.1)
  induction l generalizing l' with
  | nil => exact (List.eq_nil_iff_forall_not_mem.mpr fun a ha ↦ nomatch (hmem a).mpr ha).symm
  | cons a l ih =>
    cases l' with
    | nil => exact absurd ((hmem a).mp List.mem_cons_self) List.not_mem_nil
    | cons b l' =>
      rw [List.pairwise_cons] at hl hl'
      have hba : b.1 ≤ a.1 := by
        rcases List.mem_cons.mp ((hmem a).mp List.mem_cons_self) with rfl | ha
        · exact le_rfl
        · exact hl'.1 a ha
      have hab : a.1 ≤ b.1 := by
        rcases List.mem_cons.mp ((hmem b).mpr List.mem_cons_self) with rfl | hb
        · exact le_rfl
        · exact hl.1 b hb
      -- both lists begin with their first element of the least key
      have hkey : b.1 = a.1 := le_antisymm hba hab
      have hhead := h a.1
      rw [List.filter_cons_of_pos (by simp), List.filter_cons_of_pos (by simp [hkey])] at hhead
      obtain ⟨rfl, -⟩ := List.cons.inj hhead
      have htail (k : ℕ) : l.filter (·.1 = k) = l'.filter (·.1 = k) := by
        have hk := h k
        by_cases hak : a.1 = k
        · rw [List.filter_cons_of_pos (by simpa using hak),
            List.filter_cons_of_pos (by simpa using hak)] at hk
          exact (List.cons.inj hk).2
        · rwa [List.filter_cons_of_neg (by simpa using hak),
            List.filter_cons_of_neg (by simpa using hak)] at hk
      rw [ih hl.2 hl'.2 htail fun x ↦ by simpa using congrArg (x ∈ ·) (htail x.1)]

/-! ## Groups -/

/-- All endorsements with their heights. -/
def flatten (groups : List (ℕ × List Endorsement)) : List (ℕ × Endorsement) :=
  groups.flatMap fun g ↦ g.2.map (g.1, ·)

theorem flatten_cons (g : ℕ × List Endorsement) (groups : List (ℕ × List Endorsement)) :
    flatten (g :: groups) = g.2.map (g.1, ·) ++ flatten groups := rfl

theorem mem_flatten {x : ℕ × Endorsement} :
    x ∈ flatten groups ↔ ∃ g ∈ groups, g.1 = x.1 ∧ x.2 ∈ g.2 := by
  simp [flatten, Prod.ext_iff, and_comm]

/-- One group for each height, none of them empty. -/
structure Grouped (groups : List (ℕ × List Endorsement)) : Prop where
  sorted : groups.Pairwise fun a b ↦ a.1 < b.1
  ne_nil : ∀ g ∈ groups, g.2 ≠ []

theorem grouped_cons {g : ℕ × List Endorsement} :
    Grouped (g :: groups) ↔ (∀ g' ∈ groups, g.1 < g'.1) ∧ g.2 ≠ [] ∧ Grouped groups := by
  constructor
  · rintro ⟨hsorted, hne⟩
    rw [List.pairwise_cons] at hsorted
    rw [List.forall_mem_cons] at hne
    exact ⟨hsorted.1, hne.1, hsorted.2, hne.2⟩
  · rintro ⟨hlt, hne, hsorted, hrest⟩
    exact ⟨List.pairwise_cons.mpr ⟨hlt, hsorted⟩, List.forall_mem_cons.mpr ⟨hne, hrest⟩⟩

namespace Grouped

/-- Below the first group is below all. -/
theorem lt_of_lt {g : ℕ × List Endorsement} (h : Grouped (g :: groups)) (hlt : height < g.1) :
    ∀ g' ∈ g :: groups, height < g'.1 :=
  List.forall_mem_cons.mpr ⟨hlt, fun g' hg' ↦ hlt.trans ((grouped_cons.mp h).1 g' hg')⟩

theorem exists_mem_flatten (h : Grouped groups) {g : ℕ × List Endorsement} (hg : g ∈ groups) :
    ∃ e, (g.1, e) ∈ flatten groups := by
  obtain ⟨e, he⟩ := List.exists_mem_of_ne_nil _ (h.ne_nil g hg)
  exact ⟨e, mem_flatten.mpr ⟨g, hg, rfl, he⟩⟩

theorem pairwise_flatten (h : Grouped groups) :
    (flatten groups).Pairwise fun a b ↦ a.1 ≤ b.1 := by
  refine List.pairwise_flatMap.mpr ⟨fun g _ ↦ ?_, h.sorted.imp fun hlt a ha b hb ↦ ?_⟩
  · exact List.pairwise_map.mpr (List.pairwise_of_forall fun _ _ ↦ le_rfl)
  · obtain ⟨_, -, rfl⟩ := List.mem_map.mp ha
    obtain ⟨_, -, rfl⟩ := List.mem_map.mp hb
    exact hlt.le

end Grouped

theorem heights_insert {g : ℕ × List Endorsement} (hg : g ∈ insert height e groups) :
    g.1 = height ∨ ∃ g' ∈ groups, g'.1 = g.1 := by
  induction groups with
  | nil => exact .inl (by rw [List.mem_singleton.mp hg])
  | cons g₀ rest ih =>
    unfold insert at hg
    split at hg
    · rcases List.mem_cons.mp hg with rfl | hg
      · exact .inl rfl
      · exact .inr ⟨g, hg, rfl⟩
    · split at hg
      · rcases List.mem_cons.mp hg with rfl | hg
        · exact .inr ⟨g₀, List.mem_cons_self, rfl⟩
        · exact .inr ⟨g, List.mem_cons_of_mem _ hg, rfl⟩
      · rcases List.mem_cons.mp hg with rfl | hg
        · exact .inr ⟨_, List.mem_cons_self, rfl⟩
        · rcases ih hg with hheight | ⟨g', hg', heq⟩
          · exact .inl hheight
          · exact .inr ⟨g', List.mem_cons_of_mem _ hg', heq⟩

theorem Grouped.insert (h : Grouped groups) (height : ℕ) (e : Endorsement) :
    Grouped (insert height e groups) := by
  induction groups with
  | nil => exact ⟨List.pairwise_singleton _ _, by simp [Endorsements.insert]⟩
  | cons g₀ rest ih =>
    obtain ⟨hlater, hne, hrest⟩ := grouped_cons.mp h
    unfold Endorsements.insert
    split
    · rename_i hlt
      exact grouped_cons.mpr ⟨h.lt_of_lt hlt, List.cons_ne_nil _ _, h⟩
    · split
      · exact grouped_cons.mpr ⟨hlater, by simp, hrest⟩
      · refine grouped_cons.mpr ⟨fun g hg ↦ ?_, hne, ih hrest⟩
        rcases heights_insert hg with hg | ⟨g', hg', hg⟩
        · exact hg ▸ by omega
        · exact hg ▸ hlater g' hg'

theorem filter_map_pair (g : ℕ × List Endorsement) (k : ℕ) :
    (g.2.map (g.1, ·)).filter (·.1 = k) = if g.1 = k then g.2.map (g.1, ·) else [] := by
  split
  · exact List.filter_eq_self.mpr fun a ha ↦ by
      obtain ⟨_, -, rfl⟩ := List.mem_map.mp ha
      simpa
  · exact List.filter_eq_nil_iff.mpr fun a ha ↦ by
      obtain ⟨_, -, rfl⟩ := List.mem_map.mp ha
      simpa

theorem filter_flatten_of_lt (h : ∀ g ∈ groups, height < g.1) :
    (flatten groups).filter (·.1 = height) = [] := by
  refine List.filter_eq_nil_iff.mpr fun a ha ↦ ?_
  obtain ⟨g, hg, hheight, -⟩ := mem_flatten.mp ha
  simpa [← hheight] using (h g hg).ne'

/-- A new endorsement comes after those of its height. -/
theorem filter_flatten_insert (h : Grouped groups) (height : ℕ) (e : Endorsement) (k : ℕ) :
    (flatten (insert height e groups)).filter (·.1 = k) =
      (flatten groups).filter (·.1 = k) ++ if height = k then [(height, e)] else [] := by
  induction groups with
  | nil => simpa [flatten, Endorsements.insert] using filter_map_pair (height, [e]) k
  | cons g₀ rest ih =>
    obtain ⟨hlater, -, hrest⟩ := grouped_cons.mp h
    unfold Endorsements.insert
    split
    · rename_i hlt
      rw [flatten_cons, List.filter_append, filter_map_pair]
      by_cases hk : height = k
      · -- all groups are above the new one
        subst hk
        rw [filter_flatten_of_lt (h.lt_of_lt hlt), if_pos rfl, if_pos rfl]
        rfl
      · rw [if_neg hk, if_neg hk, List.append_nil]
        rfl
    · split
      · rename_i hheight
        subst hheight
        rw [flatten_cons, flatten_cons, List.map_append, List.append_assoc, List.filter_append,
          List.filter_append, List.filter_append, List.append_assoc]
        refine congrArg _ ?_
        by_cases hk : g₀.1 = k
        · -- no later group has this height
          subst hk
          rw [filter_flatten_of_lt hlater, if_pos rfl]
          simp
        · simp [hk]
      · rw [flatten_cons, flatten_cons, List.filter_append, List.filter_append, ih hrest,
          List.append_assoc]

theorem ofList_append_singleton (es : List (ℕ × Endorsement)) (x : ℕ × Endorsement) :
    ofList (es ++ [x]) = (ofList es).add x.1 x.2 := by
  rw [ofList, List.foldl_append]
  rfl

theorem grouped_ofList (es : List (ℕ × Endorsement)) : Grouped (ofList es).groups := by
  induction es using List.reverseRecOn with
  | nil => exact ⟨List.Pairwise.nil, fun _ hg ↦ absurd hg List.not_mem_nil⟩
  | append_singleton es x ih =>
    rw [ofList_append_singleton]
    exact ih.insert x.1 x.2

theorem filter_flatten_ofList (es : List (ℕ × Endorsement)) (k : ℕ) :
    (flatten (ofList es).groups).filter (·.1 = k) = es.filter (·.1 = k) := by
  induction es using List.reverseRecOn with
  | nil => rfl
  | append_singleton es x ih =>
    rw [ofList_append_singleton, List.filter_append, ← ih]
    refine (filter_flatten_insert (grouped_ofList es) x.1 x.2 k).trans (congrArg _ ?_)
    rw [List.filter_singleton]
    simp

/-- The groups in their order are the endorsements sorted by height. -/
theorem flatten_ofList (es : List (ℕ × Endorsement)) :
    flatten (ofList es).groups = byHeight es :=
  eq_of_filter_eq (grouped_ofList es).pairwise_flatten (pairwise_byHeight es) fun k ↦
    (filter_flatten_ofList es k).trans (filter_byHeight es k).symm

theorem mem_flatten_ofList {x : ℕ × Endorsement} : x ∈ flatten (ofList es).groups ↔ x ∈ es := by
  rw [flatten_ofList, (byHeight_perm es).mem_iff]

theorem lowest?_ofList (es : List (ℕ × Endorsement)) :
    (ofList es).lowest? = (es.map (·.1)).min? := by
  have hgrouped := grouped_ofList es
  have hmem {x : ℕ × Endorsement} : x ∈ flatten (ofList es).groups ↔ x ∈ es := mem_flatten_ofList
  unfold lowest?
  cases hgroups : (ofList es).groups with
  | nil =>
    rw [hgroups] at hmem
    have hes : es = [] := List.eq_nil_iff_forall_not_mem.mpr fun x hx ↦ nomatch hmem.mpr hx
    rw [hes]
    rfl
  | cons g rest =>
    rw [hgroups] at hgrouped hmem
    symm
    refine List.min?_eq_some_iff.mpr ⟨?_, fun k hk ↦ ?_⟩
    · obtain ⟨e, he⟩ := hgrouped.exists_mem_flatten List.mem_cons_self
      exact List.mem_map.mpr ⟨(g.1, e), hmem.mp he, rfl⟩
    · obtain ⟨x, hx, rfl⟩ := List.mem_map.mp hk
      obtain ⟨g', hg', heq, -⟩ := mem_flatten.mp (hmem.mpr hx)
      rw [← heq]
      rcases List.mem_cons.mp hg' with rfl | hg'
      · exact le_rfl
      · exact ((grouped_cons.mp hgrouped).1 g' hg').le

end EndorsedChain.Reward.Endorsements
