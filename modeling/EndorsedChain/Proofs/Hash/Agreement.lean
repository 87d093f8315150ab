import EndorsedChain.Header.VeriBlock
import Mathlib.Data.List.Infix
import Mathlib.Tactic.SplitIfs

/-!
# When truncated hashes agree

A reference agrees with the hash of a header exactly if it is one of its suffixes.  The forms in
which headers refer to each other agree with the hash they were trimmed from and keep its store
key.
-/

namespace EndorsedChain

namespace VBlake

theorem ext_bytes {a b : VBlake} (h : a.bytes = b.bytes) : a = b := by
  cases a; cases b; cases h; rfl

theorem bytes_trim (h : VBlake) {size : Nat} (hpos : 0 < size) :
    (h.trim size).bytes = h.bytes.drop (h.bytes.length - size) := by
  unfold trim
  split
  · rfl
  · rw [show h.bytes.length - size = 0 by omega, List.drop_zero]

theorem bytes_trim_suffix (h : VBlake) (size : Nat) : (h.trim size).bytes <:+ h.bytes := by
  unfold trim
  split
  · exact List.drop_suffix _ _
  · exact List.suffix_refl _

/-- Trimming twice is trimming to the smaller size. -/
theorem trim_trim (h : VBlake) {m n : Nat} (hm : 0 < m) (hn : 0 < n) :
    (h.trim n).trim m = h.trim (min m n) := by
  apply ext_bytes
  rw [bytes_trim _ hm, bytes_trim _ hn, bytes_trim _ (by omega), List.drop_drop, List.length_drop]
  congr 1
  omega

/-- The suffix of a given length is determined by the hash. -/
theorem trim_eq_of_suffix {a b : VBlake} (h : a.bytes <:+ b.bytes) : b.trim a.length = a := by
  have hpos : 0 < a.length := a.length_pos
  apply ext_bytes
  rw [bytes_trim _ hpos]
  exact (List.suffix_iff_eq_drop.mp h).symm

/-- Two hashes agree if one is a suffix of the other. -/
theorem agrees_iff {a b : VBlake} :
    a.agrees b = true ↔ a.bytes <:+ b.bytes ∨ b.bytes <:+ a.bytes := by
  unfold agrees
  simp only [decide_eq_true_eq]
  constructor
  · intro h
    rcases Nat.le_total a.length b.length with hle | hle
    · left
      rw [Nat.min_eq_left hle, trim_of_le le_rfl] at h
      rw [h]
      exact bytes_trim_suffix _ _
    · right
      rw [Nat.min_eq_right hle, trim_of_le (h := b) le_rfl] at h
      rw [← h]
      exact bytes_trim_suffix _ _
  · rintro (h | h)
    · have hle : a.length ≤ b.length := h.length_le
      rw [Nat.min_eq_left hle, trim_of_le (h := a) le_rfl]
      exact (trim_eq_of_suffix h).symm
    · have hle : b.length ≤ a.length := h.length_le
      rw [Nat.min_eq_right hle, trim_of_le (h := b) le_rfl]
      exact trim_eq_of_suffix h

@[simp] theorem agrees_self (a : VBlake) : a.agrees a = true :=
  agrees_iff.mpr (.inl (List.suffix_refl _))

/-- A reference that is no longer than a hash agrees with it if the hash ends with it. -/
theorem agrees_iff_endsWith {a b : VBlake} (hle : a.length ≤ b.length) :
    a.agrees b = true ↔ b.endsWith a = true := by
  rw [agrees_iff, endsWith, List.isSuffixOf_iff_suffix]
  constructor
  · rintro (h | h)
    · exact h
    · exact (h.eq_of_length (le_antisymm h.length_le hle)) ▸ List.suffix_refl _
  · exact .inl

theorem agrees_iff_eq {a b : VBlake} (h : a.length = b.length) : a.agrees b = true ↔ a = b := by
  constructor
  · intro hagrees
    rcases agrees_iff.mp hagrees with hsuffix | hsuffix
    · exact ext_bytes (hsuffix.eq_of_length h)
    · exact (ext_bytes (hsuffix.eq_of_length h.symm)).symm
  · rintro rfl
    exact agrees_self a

theorem agrees_iff_suffix {a b : VBlake} (hle : a.length ≤ b.length) :
    a.agrees b = true ↔ a.bytes <:+ b.bytes :=
  (agrees_iff_endsWith hle).trans List.isSuffixOf_iff_suffix

theorem endsWith_iff {a b : VBlake} :
    b.endsWith a = true ↔ a.length ≤ b.length ∧ a.agrees b = true := by
  constructor
  · intro hends
    have hle : a.length ≤ b.length := (List.isSuffixOf_iff_suffix.mp hends).length_le
    exact ⟨hle, (agrees_iff_endsWith hle).mpr hends⟩
  · rintro ⟨hle, hagrees⟩
    exact (agrees_iff_endsWith hle).mp hagrees

theorem agrees_comm (a b : VBlake) : a.agrees b = b.agrees a :=
  Bool.eq_iff_iff.mpr (agrees_iff.trans (or_comm.trans agrees_iff.symm))

/-! ## Store keys -/

theorem storeKey_eq_of_suffix {a b : VBlake} (ha : 9 ≤ a.length) (h : a.bytes <:+ b.bytes) :
    a.storeKey = b.storeKey := by
  rw [← trim_eq_of_suffix h]
  exact (trim_trim b (by decide) (by omega)).trans (by rw [Nat.min_eq_left ha]; rfl)

/-- Hashes that agree have the same last bytes, as many as the shorter one has. -/
theorem storeKey_eq_of_agrees {a b : VBlake} (ha : 9 ≤ a.length) (hb : 9 ≤ b.length)
    (h : a.agrees b = true) : a.storeKey = b.storeKey := by
  rcases agrees_iff.mp h with hsuffix | hsuffix
  · exact storeKey_eq_of_suffix ha hsuffix
  · exact (storeKey_eq_of_suffix hb hsuffix).symm

@[simp] theorem toKeystone_toPrevious (a : VBlake) : a.toPrevious.toKeystone = a.toKeystone :=
  trim_trim a (by decide) (by decide)

@[simp] theorem storeKey_toKeystone (a : VBlake) : a.toKeystone.storeKey = a.storeKey :=
  trim_trim a (by decide) (by decide)

theorem toKeystone_agrees (a : VBlake) : a.toKeystone.agrees a = true :=
  agrees_iff.mpr (.inl (bytes_trim_suffix a 9))

end VBlake

namespace VeriBlock

/-- A sealed header is its draft with the references cut to size. -/
theorem toDraft_of_seal {d : Draft} {h : Header} (hseal : d.seal = .ok h) :
    h.toDraft =
      { d with
        previousBlock := d.previousBlock.toPrevious
        previousKeystone := d.previousKeystone.toKeystone
        secondPreviousKeystone := d.secondPreviousKeystone.toKeystone } := by
  unfold Draft.seal at hseal
  split_ifs at hseal
  cases hseal
  rfl

namespace Header

@[simp] theorem length_hash (h : Header) : h.hash.length = 24 := by
  rw [h.hash_eq, VBlake.length_digest]

/-- The hash follows from the other fields. -/
theorem ext_draft {a b : Header} (h : a.toDraft = b.toDraft) : a = b := by
  have hhash : a.hash = b.hash := by rw [a.hash_eq, b.hash_eq, h]
  cases a; cases b
  cases h; cases hhash
  rfl

theorem length_effectivePreviousKeystone (h : Header) :
    h.effectivePreviousKeystone.length = 9 := by
  unfold effectivePreviousKeystone
  split
  · exact VBlake.length_trim (by decide) (by rw [h.length_previousBlock]; decide)
  · exact h.length_previousKeystone

end Header

end VeriBlock

end EndorsedChain
