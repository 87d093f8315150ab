import Mathlib.Data.Finset.Card
import Mathlib.Data.Nat.Find
import Mathlib.Logic.Function.Iterate

/-!
# Steps of a partial function

Walks through a store and walks from keystone to keystone take one step after the other until there
is no next one.  Where the steps stay among finitely many elements, a walk with more steps than
elements has been at one of them twice (`exists_steps_eq`), and then it never ends
(`steps_ne_none`).
-/

namespace EndorsedChain

variable {α : Type} (f : α → Option α)

/-- Where `n` steps lead. -/
def steps (n : Nat) (x : Option α) : Option α := (·.bind f)^[n] x

@[simp] theorem steps_none (n : Nat) : steps f n none = none := by
  induction n with
  | zero => rfl
  | succ n ih => exact ih

theorem steps_succ (n : Nat) (a : α) : steps f (n + 1) (some a) = steps f n (f a) := rfl

theorem steps_add (m n : Nat) (x : Option α) : steps f (m + n) x = steps f m (steps f n x) :=
  Function.iterate_add_apply _ m n x

theorem steps_succ_last (n : Nat) (x : Option α) : steps f (n + 1) x = (steps f n x).bind f :=
  Function.iterate_succ_apply' _ n x

theorem steps_eq_none_of_le {m n : Nat} {x : Option α} (hle : m ≤ n) (h : steps f m x = none) :
    steps f n x = none := by
  obtain ⟨k, rfl⟩ := Nat.exists_eq_add_of_le' hle
  rw [steps_add, h, steps_none]

variable {l : List α} {a b : α}

theorem steps_mem (hclosed : ∀ a ∈ l, ∀ b, f a = some b → b ∈ l) (n : Nat)
    (ha : a ∈ l) (h : steps f n (some a) = some b) : b ∈ l := by
  induction n generalizing a with
  | zero => cases h; exact ha
  | succ n ih =>
    rw [steps_succ] at h
    cases hf : f a with
    | none => rw [hf, steps_none] at h; cases h
    | some c => exact ih (hclosed a ha c hf) (hf ▸ h)

/-- Steps that a function carries over to steps of another kind. -/
theorem map_steps {β : Type} {g : α → β} {f' : β → Option β}
    (hclosed : ∀ a ∈ l, ∀ b, f a = some b → b ∈ l) (hg : ∀ a ∈ l, (f a).map g = f' (g a))
    (n : Nat) (ha : a ∈ l) : (steps f n (some a)).map g = steps f' n (some (g a)) := by
  induction n generalizing a with
  | zero => rfl
  | succ n ih =>
    rw [steps_succ, steps_succ, ← hg a ha]
    cases hf : f a with
    | none => rw [Option.map_none, steps_none, steps_none, Option.map_none]
    | some b => exact ih (hclosed a ha b hf)

/-- With more positions than elements, two of them are at the same element. -/
theorem exists_steps_eq (hclosed : ∀ a ∈ l, ∀ b, f a = some b → b ∈ l) (ha : a ∈ l)
    (h : steps f l.length (some a) ≠ none) :
    ∃ i j b, i < j ∧ j ≤ l.length ∧
      steps f i (some a) = some b ∧ steps f j (some a) = some b := by
  classical
  have hsome {m : Nat} (hm : m ≤ l.length) : ∃ b, steps f m (some a) = some b :=
    Option.ne_none_iff_exists'.mp fun hnone ↦ h (steps_eq_none_of_le f hm hnone)
  have hcard : (l.map some).toFinset.card < (Finset.range (l.length + 1)).card := by
    rw [Finset.card_range]
    exact Nat.lt_succ_of_le ((List.toFinset_card_le _).trans_eq (List.length_map _))
  obtain ⟨i, hi, j, hj, hne, heq⟩ := Finset.exists_ne_map_eq_of_card_lt_of_maps_to hcard
    (f := fun m ↦ steps f m (some a)) fun m hm ↦ by
      obtain ⟨b, hb⟩ := hsome (Nat.le_of_lt_succ (Finset.mem_range.mp hm))
      simp only [hb]
      exact List.mem_toFinset.mpr (List.mem_map.mpr ⟨b, steps_mem f hclosed m ha hb, rfl⟩)
  wlog hij : i < j generalizing i j
  · exact this j hj i hi hne.symm heq.symm (by omega)
  have hle : j ≤ l.length := Nat.le_of_lt_succ (Finset.mem_range.mp hj)
  obtain ⟨b, hb⟩ := hsome hle
  exact ⟨i, j, b, hij, hle, heq.trans hb, hb⟩

/-- As many steps as there are elements can only be taken if the steps never end. -/
theorem steps_ne_none (hclosed : ∀ a ∈ l, ∀ b, f a = some b → b ∈ l) (ha : a ∈ l)
    (h : steps f l.length (some a) ≠ none) (n : Nat) : steps f n (some a) ≠ none := by
  intro hnone
  have hex : ∃ n, steps f n (some a) = none := ⟨n, hnone⟩
  obtain ⟨k, hk, hmin⟩ : ∃ k, steps f k (some a) = none ∧ ∀ m < k, steps f m (some a) ≠ none :=
    ⟨Nat.find hex, Nat.find_spec hex, fun _ ↦ Nat.find_min hex⟩
  have hlt : l.length < k := by
    by_contra hle
    exact h (steps_eq_none_of_le f (Nat.le_of_not_lt hle) hk)
  obtain ⟨i, j, b, hij, hle, hi, hj⟩ := exists_steps_eq f hclosed ha h
  -- leaving out the steps between the two positions comes to an end too soon
  refine hmin (k - j + i) (by omega) ?_
  rw [steps_add, hi, ← hj, ← steps_add, Nat.sub_add_cancel (by omega), hk]

theorem add_rank_le (rank : α → Nat) (hclosed : ∀ a ∈ l, ∀ b, f a = some b → b ∈ l)
    (hrank : ∀ a ∈ l, ∀ b, f a = some b → rank b < rank a) (ha : a ∈ l) {n : Nat}
    (h : steps f n (some a) = some b) : n + rank b ≤ rank a := by
  induction n generalizing a with
  | zero => cases h; omega
  | succ n ih =>
    rw [steps_succ] at h
    cases hf : f a with
    | none => rw [hf, steps_none] at h; cases h
    | some c =>
      have hlt : rank c < rank a := hrank a ha c hf
      have hle : n + rank b ≤ rank c := ih (hclosed a ha c hf) (hf ▸ h)
      omega

/-- Where each step goes down in rank, no walk is anywhere twice. -/
theorem once_of_rank_lt (rank : α → Nat) (hclosed : ∀ a ∈ l, ∀ b, f a = some b → b ∈ l)
    (hrank : ∀ a ∈ l, ∀ b, f a = some b → rank b < rank a) (ha : a ∈ l) {m n : Nat}
    (hm : steps f m (some a) = some b) (hn : steps f n (some a) = some b) : m = n := by
  wlog hle : m ≤ n generalizing m n
  · exact (this hn hm (by omega)).symm
  obtain ⟨k, rfl⟩ := Nat.exists_eq_add_of_le' hle
  rw [steps_add, hm] at hn
  have hback := add_rank_le f rank hclosed hrank (steps_mem f hclosed m ha hm) hn
  omega

/-- A walk that is nowhere twice takes fewer steps than there are elements. -/
theorem steps_eq_none_of_once (hclosed : ∀ a ∈ l, ∀ b, f a = some b → b ∈ l) (ha : a ∈ l)
    (honce : ∀ m n b, steps f m (some a) = some b → steps f n (some a) = some b → m = n) :
    steps f l.length (some a) = none := by
  by_contra h
  obtain ⟨i, j, b, hij, -, hi, hj⟩ := exists_steps_eq f hclosed ha h
  exact Nat.ne_of_lt hij (honce i j b hi hj)

end EndorsedChain
