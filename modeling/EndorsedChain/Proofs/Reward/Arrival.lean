import EndorsedChain.Proofs.Reward.Split
import Mathlib.Data.Finset.Sort

/-!
# The order of arrival

Endorsements are kept in one group for each height, and the members of a group in the order in which
they arrived (`groups_ofList`).  The order decides nothing else: all members of a group are paid the
same, so that a payout comes out with the same amounts, or fails in the same way.  Absolute heights
decide nothing at all, since weights go by the distance from the lowest height.
-/

namespace EndorsedChain.Reward

open Endorsements

/-! ## Groups -/

namespace Endorsements

variable {groups : List (ℕ × List Endorsement)} {es es' : List (ℕ × Endorsement)} {height : ℕ}

/-- The endorsements at a height, as they arrived. -/
def atHeight (es : List (ℕ × Endorsement)) (height : ℕ) : List Endorsement :=
  (es.filter (·.1 = height)).map (·.2)

theorem atHeight_perm (h : es.Perm es') (height : ℕ) :
    (atHeight es height).Perm (atHeight es' height) := (h.filter _).map _

theorem Grouped.atHeight_flatten (h : Grouped groups) {g : ℕ × List Endorsement}
    (hg : g ∈ groups) : atHeight (flatten groups) g.1 = g.2 := by
  induction groups with
  | nil => exact absurd hg List.not_mem_nil
  | cons g₀ rest ih =>
    obtain ⟨hlater, -, hrest⟩ := grouped_cons.mp h
    rw [atHeight, flatten_cons, List.filter_append, filter_map_pair]
    rcases List.mem_cons.mp hg with rfl | hg
    · rw [if_pos rfl, filter_flatten_of_lt hlater]
      simp [Function.comp_def]
    · rw [if_neg (hlater g hg).ne]
      exact ih hrest hg

theorem mem_heights_ofList : height ∈ (ofList es).groups.map (·.1) ↔ height ∈ es.map (·.1) := by
  simp only [List.mem_map]
  constructor
  · rintro ⟨g, hg, rfl⟩
    obtain ⟨e, he⟩ := (grouped_ofList es).exists_mem_flatten hg
    exact ⟨(g.1, e), mem_flatten_ofList.mp he, rfl⟩
  · rintro ⟨x, hx, rfl⟩
    obtain ⟨g, hg, heq, -⟩ := mem_flatten.mp (mem_flatten_ofList.mpr hx)
    exact ⟨g, hg, heq⟩

/-- There is a group for each height, in the order of the heights. -/
theorem heights_ofList (es : List (ℕ × Endorsement)) :
    (ofList es).groups.map (·.1) = (es.map (·.1)).toFinset.sort := by
  have hsorted : ((ofList es).groups.map (·.1)).SortedLT :=
    (List.pairwise_map.mpr (grouped_ofList es).sorted).sortedLT
  refine hsorted.eq_of_mem_iff (Finset.sortedLT_sort _) fun height ↦ ?_
  rw [mem_heights_ofList, Finset.mem_sort, List.mem_toFinset]

/-- What is kept of endorsements: the order of those at one height, and no other. -/
theorem groups_ofList (es : List (ℕ × Endorsement)) :
    (ofList es).groups =
      (es.map (·.1)).toFinset.sort.map fun height ↦ (height, atHeight es height) := by
  rw [← heights_ofList, List.map_map]
  conv_lhs => rw [← List.map_id (ofList es).groups]
  refine List.map_congr_left fun g hg ↦ ?_
  have hgroup := (grouped_ofList es).atHeight_flatten hg
  rw [atHeight, filter_flatten_ofList] at hgroup
  exact Prod.ext rfl hgroup.symm

theorem ofList_eq_ofList (h : es.Perm es')
    (horder : ∀ height, es.filter (·.1 = height) = es'.filter (·.1 = height)) :
    ofList es = ofList es' := by
  have hgroups : (ofList es).groups = (ofList es').groups := by
    rw [groups_ofList, groups_ofList, List.toFinset_eq_of_perm _ _ (h.map _)]
    simp only [atHeight, horder]
  cases hes : ofList es
  cases hes' : ofList es'
  rw [hes, hes'] at hgroups
  exact congrArg mk hgroups

/-- Groups at the same heights, with the same members in any order. -/
def Regrouped : List (ℕ × List Endorsement) → List (ℕ × List Endorsement) → Prop :=
  List.Forall₂ fun g g' ↦ g.1 = g'.1 ∧ g.2.Perm g'.2

theorem regrouped_ofList (h : es.Perm es') :
    Regrouped (ofList es).groups (ofList es').groups := by
  rw [groups_ofList, groups_ofList, ← List.toFinset_eq_of_perm _ _ (h.map _), Regrouped,
    List.forall₂_map_left_iff, List.forall₂_map_right_iff, List.forall₂_same]
  exact fun height _ ↦ ⟨rfl, atHeight_perm h height⟩

/-- Moves all endorsements up by so many heights. -/
def raise (distance : ℕ) (groups : List (ℕ × List Endorsement)) : List (ℕ × List Endorsement) :=
  groups.map fun g ↦ (g.1 + distance, g.2)

theorem insert_raise (distance height : ℕ) (e : Endorsement)
    (groups : List (ℕ × List Endorsement)) :
    insert (height + distance) e (raise distance groups) =
      raise distance (insert height e groups) := by
  induction groups with
  | nil => rfl
  | cons g rest ih =>
    have hraise : raise distance (g :: rest) = (g.1 + distance, g.2) :: raise distance rest := rfl
    rw [hraise, insert, insert, ih]
    simp only [Nat.add_lt_add_iff_right, Nat.add_right_cancel_iff]
    split
    · rfl
    · split <;> rfl

theorem ofList_raise (distance : ℕ) (es : List (ℕ × Endorsement)) :
    (ofList (es.map fun x ↦ (x.1 + distance, x.2))).groups =
      raise distance (ofList es).groups := by
  induction es using List.reverseRecOn with
  | nil => rfl
  | append_singleton es x ih =>
    rw [List.map_append, List.map_singleton, ofList_append_singleton, ofList_append_singleton, add,
      add, ih, insert_raise]

end Endorsements

/-! ## Results up to order -/

/-- Fails with the same error, or succeeds with related results. -/
inductive SameUpTo {α : Type} (R : α → α → Prop) : Except Error α → Except Error α → Prop
  | error (e : Error) : SameUpTo R (.error e) (.error e)
  | ok {a b : α} (h : R a b) : SameUpTo R (.ok a) (.ok b)

namespace SameUpTo

variable {α β : Type} {R : α → α → Prop} {S : β → β → Prop} {x y z : Except Error α}
  {f g : α → Except Error β}

theorem refl (hR : ∀ a, R a a) (x : Except Error α) : SameUpTo R x x := by
  cases x with
  | error e => exact .error e
  | ok a => exact .ok (hR a)

theorem trans (hR : ∀ a b c, R a b → R b c → R a c) (hxy : SameUpTo R x y)
    (hyz : SameUpTo R y z) : SameUpTo R x z := by
  cases hxy with
  | error e => exact hyz
  | ok hab =>
    cases hyz with
    | ok hbc => exact .ok (hR _ _ _ hab hbc)

theorem bind (h : SameUpTo R x y) (hf : ∀ a b, R a b → SameUpTo S (f a) (g b)) :
    SameUpTo S (x >>= f) (y >>= g) := by
  cases h with
  | error e => exact .error e
  | ok hab => exact hf _ _ hab

/-- Steps after a common one. -/
theorem bind_same (x : Except Error α) (hf : ∀ a, SameUpTo S (f a) (g a)) :
    SameUpTo S (x >>= f) (x >>= g) :=
  (refl (fun _ ↦ rfl) x).bind fun a b hab ↦ (hab : a = b) ▸ hf a

end SameUpTo

/-! ## Paying in any order -/

/-- The same sum and the same outputs in any order. -/
structure PaidAlike (a b : Amount × List Output) : Prop where
  sum : a.1 = b.1
  outputs : a.2.Perm b.2

/-- The same payout, with the outputs in any order. -/
structure Payout.Alike (p q : Payout) : Prop where
  blockReward : p.blockReward = q.blockReward
  paid : p.paid = q.paid
  outputs : p.outputs.Perm q.outputs

section Paying

variable {c : Config} {share reward paid : Amount} {es es' : List Endorsement}
  {groups groups' : List (ℕ × List Endorsement)} {score : Decimal} {lowest : ℕ}

theorem PaidAlike.refl (a : Amount × List Output) : PaidAlike a a := ⟨rfl, .refl _⟩

theorem PaidAlike.trans (x y z : Amount × List Output) (hxy : PaidAlike x y)
    (hyz : PaidAlike y z) : PaidAlike x z :=
  ⟨hxy.sum.trans hyz.sum, hxy.outputs.trans hyz.outputs⟩

theorem payGroup_of_zero (paid : Amount) (es : List Endorsement) :
    Config.payGroup .zero paid es = .ok (paid, []) := by
  cases es with
  | nil => rfl
  | cons e es => rw [Config.payGroup, if_pos rfl]; rfl

theorem payGroup_cons (hshare : share ≠ .zero) (paid : Amount) (e : Endorsement)
    (es : List Endorsement) :
    Config.payGroup share paid (e :: es) =
      ((paid.add share).mapError fun e ↦ .invariant (.amount e)) >>= fun paid ↦
        Config.payGroup share paid es >>= fun x ↦ .ok (x.1, ⟨e.miner, share⟩ :: x.2) := by
  rw [Config.payGroup, if_neg hshare]
  rfl

/-- Members of a group are paid the same, so that their order does not matter. -/
theorem payGroup_perm (h : es.Perm es') (share paid : Amount) :
    SameUpTo PaidAlike (Config.payGroup share paid es) (Config.payGroup share paid es') := by
  by_cases hshare : share = .zero
  · subst hshare
    rw [payGroup_of_zero, payGroup_of_zero]
    exact .ok (.refl _)
  · induction h generalizing paid with
    | nil => exact .refl PaidAlike.refl _
    | cons e _ ih =>
      rw [payGroup_cons hshare, payGroup_cons hshare]
      exact .bind_same _ fun sum ↦ (ih sum).bind fun _ _ hab ↦ .ok ⟨hab.sum, hab.outputs.cons _⟩
    | swap e e' es =>
      rw [payGroup_cons hshare, payGroup_cons hshare]
      refine .bind_same _ fun sum ↦ ?_
      rw [payGroup_cons hshare, payGroup_cons hshare, bind_assoc, bind_assoc]
      refine .bind_same _ fun sum ↦ ?_
      rw [bind_assoc, bind_assoc]
      exact .bind_same _ fun x ↦ .ok ⟨rfl, .swap ..⟩
    | trans _ _ ih ih' => exact .trans PaidAlike.trans (ih paid) (ih' paid)

theorem payGroups_regrouped (h : Regrouped groups groups') (paid : Amount) :
    SameUpTo PaidAlike (c.payGroups reward score lowest paid groups)
      (c.payGroups reward score lowest paid groups') := by
  induction h generalizing paid with
  | nil => exact .refl PaidAlike.refl _
  | cons hg _ ih =>
    obtain ⟨hheight, hmembers⟩ := hg
    unfold Config.payGroups
    rw [hheight]
    refine .bind_same _ fun share ↦ (payGroup_perm hmembers share paid).bind ?_
    rintro ⟨sum, outputs⟩ ⟨_, outputs'⟩ ⟨rfl, hfirst⟩
    exact (ih sum).bind fun _ _ hrest ↦ .ok ⟨hrest.sum, hfirst.append hrest.outputs⟩

end Paying

/-! ## Payouts -/

namespace Config

variable {a b : Endorsements} {es es' : List (ℕ × Endorsement)}

theorem lowest?_regrouped (h : Regrouped a.groups b.groups) : a.lowest? = b.lowest? := by
  obtain ⟨groups⟩ := a
  obtain ⟨groups'⟩ := b
  cases h with
  | nil => rfl
  | cons hg _ => exact congrArg some hg.1

theorem score_regrouped (c : Config) (h : Regrouped a.groups b.groups) :
    c.score a = c.score b := by
  unfold score
  rw [lowest?_regrouped h]
  obtain ⟨groups⟩ := a
  obtain ⟨groups'⟩ := b
  cases (Endorsements.mk groups').lowest? with
  | none => rfl
  | some lowest =>
    dsimp only at h ⊢
    generalize Decimal.zero = total
    induction h generalizing total with
    | nil => rfl
    | cons hg _ ih =>
      obtain ⟨hheight, hmembers⟩ := hg
      rw [List.foldl_cons, List.foldl_cons, hheight, hmembers.length_eq]
      exact ih _

/-- The weight of each endorsement stays the same, and so does the sum of all. -/
theorem payout_regrouped (c : Config) (block : ℕ) (difficulty : Decimal)
    (h : Regrouped a.groups b.groups) :
    SameUpTo Payout.Alike (c.payout block a difficulty) (c.payout block b difficulty) := by
  unfold payout
  rw [score_regrouped c h, lowest?_regrouped h]
  refine .bind_same _ fun reward ↦ ?_
  cases reward.toUInt64? with
  | none => exact .error _
  | some units =>
    have hlimit (x y : Amount × List Output) (hxy : PaidAlike x y) : SameUpTo Payout.Alike
        (if (⟨units⟩ : Amount) < x.1 then throw (.invariant (.paidTooMuch x.1 ⟨units⟩))
          else pure (Payout.mk ⟨units⟩ x.1 x.2))
        (if (⟨units⟩ : Amount) < y.1 then throw (.invariant (.paidTooMuch y.1 ⟨units⟩))
          else pure (Payout.mk ⟨units⟩ y.1 y.2)) := by
      rw [hxy.sum]
      split
      · exact .error _
      · exact .ok ⟨rfl, rfl, hxy.outputs⟩
    cases b.lowest? with
    | none => exact .bind_same (.ok (.zero, [])) fun x ↦ hlimit x x (.refl x)
    | some lowest =>
      cases (c.score b).isZero with
      | true => exact .bind_same (.ok (.zero, [])) fun x ↦ hlimit x x (.refl x)
      | false => exact (payGroups_regrouped h .zero).bind hlimit

/-! ## Raised endorsements -/

section Raised

variable {distance : ℕ}

theorem lowest?_raise (h : a.groups = raise distance b.groups) :
    a.lowest? = b.lowest?.map (· + distance) := by
  rw [Endorsements.lowest?, h, raise, List.head?_map, Endorsements.lowest?, Option.map_map,
    Option.map_map]
  rfl

theorem score_raise (c : Config) (h : a.groups = raise distance b.groups) :
    c.score a = c.score b := by
  unfold score
  rw [lowest?_raise h, h]
  cases b.lowest? with
  | none => rfl
  | some lowest =>
    simp only [Option.map_some, raise, List.foldl_map, Nat.add_sub_add_right]

theorem payGroups_raise (c : Config) (reward : Amount) (score : Decimal) (lowest : ℕ)
    (paid : Amount) (groups : List (ℕ × List Endorsement)) :
    c.payGroups reward score (lowest + distance) paid (raise distance groups) =
      c.payGroups reward score lowest paid groups := by
  induction groups generalizing paid with
  | nil => rfl
  | cons g groups ih =>
    have hraise : raise distance (g :: groups) = (g.1 + distance, g.2) :: raise distance groups :=
      rfl
    rw [hraise, payGroups, payGroups]
    simp only [Nat.add_sub_add_right, ih]

theorem payout_raise (c : Config) (block : ℕ) (difficulty : Decimal)
    (h : a.groups = raise distance b.groups) :
    c.payout block a difficulty = c.payout block b difficulty := by
  unfold payout
  rw [score_raise c h, lowest?_raise h, h]
  cases b.lowest? with
  | none => rfl
  | some lowest => simp only [Option.map_some, payGroups_raise]

end Raised

/-- A payout does not depend on the order in which the endorsements arrived, but for the order of
the outputs, which goes by the arrival at each height.  Nor does it depend on where the heights
begin. -/
theorem payout_ignores_arrival (c : Config) (block : ℕ) (difficulty : Decimal)
    (h : es.Perm es') :
    SameUpTo Payout.Alike (c.payout block (.ofList es) difficulty)
      (c.payout block (.ofList es') difficulty) ∧
    ((∀ height, es.filter (·.1 = height) = es'.filter (·.1 = height)) →
      c.payout block (.ofList es) difficulty = c.payout block (.ofList es') difficulty) ∧
    ∀ distance, c.payout block (.ofList (es.map fun x ↦ (x.1 + distance, x.2))) difficulty =
      c.payout block (.ofList es) difficulty :=
  ⟨payout_regrouped c block difficulty (regrouped_ofList h),
    fun horder ↦ by rw [ofList_eq_ofList h horder],
    fun distance ↦ payout_raise c block difficulty (ofList_raise distance es)⟩

/-- Endorsements in the opposite order, in the order of their heights, and 20 heights later. -/
theorem late_endorsements_in_any_order :
    SameUpTo Payout.Alike (Config.standard.payout 1 (.ofList lateEndorsements) .one)
      (Config.standard.payout 1 (.ofList lateEndorsements.reverse) .one) ∧
    Config.standard.payout 1 (.ofList lateEndorsements) .one =
      Config.standard.payout 1 (.ofList (byHeight lateEndorsements)) .one ∧
    Config.standard.payout 1 (.ofList (lateEndorsements.map fun x ↦ (x.1 + 20, x.2))) .one =
      Config.standard.payout 1 (.ofList lateEndorsements) .one := by
  have hreverse : lateEndorsements.Perm lateEndorsements.reverse :=
    (List.reverse_perm lateEndorsements).symm
  obtain ⟨halike, -, hraise⟩ := payout_ignores_arrival .standard 1 .one hreverse
  obtain ⟨-, hsorted, -⟩ :=
    payout_ignores_arrival .standard 1 .one (byHeight_perm lateEndorsements).symm
  exact ⟨halike, hsorted fun height ↦ (filter_byHeight lateEndorsements height).symm, hraise 20⟩

end Config

end EndorsedChain.Reward
