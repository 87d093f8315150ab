import EndorsedChain.Hash.Padded
import EndorsedChain.Proofs.Hash.Agreement
import Mathlib.Data.List.GetD
import Mathlib.Tactic.SplitIfs

/-!
# Padded hashes stand for truncated ones

Whatever builds a padded hash writes it over zeros, so it is the padded form of exactly one
truncated hash (`PaddedHash.built_iff`).  Trimming and the tests on padded hashes do what they do
on the truncated hashes they stand for, hence the laws of the one hold of the other.
-/

namespace EndorsedChain

open PaddedHash

namespace PaddedHash

theorem getElem_overwrite (array : Vector UInt8 24) (slice : List UInt8) {i : Nat} (hi : i < 24) :
    (overwrite array slice)[i] = slice.getD i array[i] := by
  simp [overwrite]

theorem toList_overwrite_zeros {slice : List UInt8} (hlength : slice.length ≤ 24) :
    (overwrite zeros slice).toList = slice ++ List.replicate (24 - slice.length) 0 := by
  refine List.ext_getElem (by simp; omega) fun i hi _ ↦ ?_
  rw [Vector.length_toList] at hi
  rw [Vector.getElem_toList, getElem_overwrite _ _ hi, List.getElem_append]
  split
  · rw [List.getD_eq_getElem _ _ ‹_›]
  · rw [List.getD_eq_default _ _ (by omega)]
    simp [zeros]

end PaddedHash

namespace VBlake

/-- The hash over the front of an array of zeros. -/
def toPadded (h : VBlake) : PaddedHash where
  size := UInt8.ofNat h.length
  array := overwrite zeros h.bytes

@[simp] theorem length_toPadded (h : VBlake) : h.toPadded.length = h.length :=
  UInt8.toNat_ofNat_of_lt (Nat.lt_of_le_of_lt h.length_le (by decide))

/-- The array is the one by which hashes of one length are ordered. -/
theorem toList_array_toPadded (h : VBlake) : h.toPadded.array.toList = h.padded :=
  toList_overwrite_zeros h.length_le

@[simp] theorem significant_toPadded (h : VBlake) : h.toPadded.significant = h.bytes := by
  rw [significant, length_toPadded, toList_array_toPadded]
  exact List.take_left

theorem toPadded_injective : Function.Injective toPadded := by
  intro a b hab
  apply ext_bytes
  rw [← significant_toPadded a, hab, significant_toPadded]

theorem toPadded_array_eq_zero (h : VBlake) (i : Fin 24) (hi : h.length ≤ i) :
    h.toPadded.array[i] = 0 := by
  change (overwrite zeros h.bytes)[i.val] = 0
  rw [getElem_overwrite, List.getD_eq_default _ _ hi]
  simp [zeros]

/-! ## The two forms side by side -/

theorem toPadded_digest (message : List UInt8) :
    (VBlake.digest message).toPadded = PaddedHash.digest message := by
  rw [toPadded, length_digest]
  rfl

theorem map_toPadded_ofBytes (bytes : List UInt8) :
    (VBlake.ofBytes bytes).map toPadded = PaddedHash.ofBytes bytes := by
  unfold VBlake.ofBytes PaddedHash.ofBytes
  have hiff : (0 < bytes.length ∧ bytes.length ≤ 24) ↔
      ¬(bytes.isEmpty = true ∨ 24 < bytes.length) := by
    rw [List.isEmpty_iff_length_eq_zero]
    omega
  split_ifs with hvalid hinvalid hinvalid
  · exact absurd hinvalid (hiff.mp hvalid)
  · rfl
  · rfl
  · exact absurd (hiff.mpr hinvalid) hvalid

theorem map_toPadded_ofHex (text : String) :
    (VBlake.ofHex text).map toPadded = PaddedHash.ofHex text := by
  unfold VBlake.ofHex PaddedHash.ofHex
  cases HashError.ofHex text with
  | error e => rfl
  | ok bytes => exact map_toPadded_ofBytes bytes

theorem map_toPadded_zeros? (size : Nat) :
    (VBlake.zeros? size).map toPadded = PaddedHash.zeros? size := by
  unfold VBlake.zeros? PaddedHash.zeros?
  split_ifs with hsize
  · have harray : overwrite zeros (List.replicate size 0) = zeros := by
      apply Vector.toList_inj.mp
      rw [toList_overwrite_zeros (by rw [List.length_replicate]; exact hsize.2),
        List.length_replicate, List.replicate_append_replicate, Nat.add_sub_cancel' hsize.2]
      rfl
    simp only [Option.map_some, toPadded, length, List.length_replicate, harray]
  · rfl

/-- Nothing of the longer hash is left behind the trimmed one. -/
theorem toPadded_trim (h : VBlake) (size : Nat) :
    (h.trim size).toPadded = h.toPadded.trim size := by
  unfold PaddedHash.trim
  rw [length_toPadded, significant_toPadded]
  split_ifs with hwhole
  · rcases hwhole with hle | rfl
    · rw [trim_of_le hle]
    · rw [VBlake.trim, dif_neg (by omega)]
  · have hpos : 0 < size := by omega
    rw [toPadded, length_trim hpos (by omega), bytes_trim h hpos]

theorem toPadded_storeKey (h : VBlake) : h.storeKey.toPadded = h.toPadded.storeKey :=
  toPadded_trim h 9

theorem read_toPadded (bytes : List UInt8) :
    PaddedHash.read bytes = ((VBlake.read bytes).1.map toPadded, (VBlake.read bytes).2) := by
  unfold PaddedHash.read VBlake.read
  rcases hsized : Reader.sized bytes with ⟨e | front, rest⟩
  · rw [Reader.bind_error hsized, Reader.bind_error hsized]
    rfl
  · rw [Reader.bind_ok hsized, Reader.bind_ok hsized, ← map_toPadded_ofBytes, ofPacked]
    unfold Reader.ofExcept
    cases VBlake.ofBytes front <;> rfl

theorem toPadded_endsWith (a b : VBlake) : a.toPadded.endsWith b.toPadded = a.endsWith b := by
  rw [PaddedHash.endsWith, significant_toPadded, significant_toPadded, VBlake.endsWith]

theorem toPadded_agrees (a b : VBlake) : a.toPadded.agrees b.toPadded = a.agrees b := by
  unfold PaddedHash.agrees VBlake.agrees
  simp only [length_toPadded, ← toPadded_trim, toPadded_injective.eq_iff]

theorem compare_toNat (m n : UInt8) : compare m.toNat n.toNat = compare m n := by
  change compareOfLessAndEq _ _ = compareOfLessAndEq _ _
  simp only [compareOfLessAndEq, UInt8.lt_iff_toNat_lt, ← UInt8.toNat_inj]

theorem compare_toPadded (a b : VBlake) : compare a.toPadded b.toPadded = compare a b := by
  change (compare a.toPadded.size b.toPadded.size).then
    (compare a.toPadded.array.toList b.toPadded.array.toList) =
      (compare a.length b.length).then (compare a.padded b.padded)
  rw [toList_array_toPadded, toList_array_toPadded, ← compare_toNat, ← length_toPadded a,
    ← length_toPadded b]
  rfl

theorem built_toPadded (h : VBlake) : Built h.toPadded := by
  have hbytes : VBlake.ofBytes h.bytes = .ok h := dif_pos ⟨h.length_pos, h.length_le⟩
  exact .ofBytes (by rw [← map_toPadded_ofBytes, hbytes]; rfl)

end VBlake

namespace PaddedHash

open VBlake

variable {p q : PaddedHash}

theorem exists_toPadded_of_map {ε : Type} {r : Except ε VBlake} (h : r.map toPadded = .ok p) :
    ∃ a : VBlake, a.toPadded = p := by
  cases r with
  | error e => cases h
  | ok a => exact ⟨a, Except.ok.inj h⟩

/-- Whatever a hash is built from, it is the padded form of a truncated one. -/
theorem Built.exists_toPadded (h : Built p) : ∃ a : VBlake, a.toPadded = p := by
  induction h with
  | digest message => exact ⟨_, toPadded_digest message⟩
  | ofBytes h => exact exists_toPadded_of_map ((map_toPadded_ofBytes _).trans h)
  | zeros? h =>
    obtain ⟨a, -, ha⟩ := Option.map_eq_some_iff.mp ((map_toPadded_zeros? _).trans h)
    exact ⟨a, ha⟩
  | trim _ size ih =>
    obtain ⟨a, rfl⟩ := ih
    exact ⟨_, toPadded_trim a size⟩
  | read h => exact exists_toPadded_of_map (congrArg Prod.fst ((read_toPadded _).symm.trans h))
  | ofHex h => exact exists_toPadded_of_map ((map_toPadded_ofHex _).trans h)

theorem built_iff : Built p ↔ ∃ a : VBlake, a.toPadded = p := by
  constructor
  · exact Built.exists_toPadded
  · rintro ⟨a, rfl⟩
    exact built_toPadded a

/-- Behind a hash there are zeros, so two are equal if their own bytes are.  Trimming, the tests
for a common end and the store keys are those of the truncated hashes that the two stand for. -/
theorem padded_compare_as_suffixes (hp : Built p) (hq : Built q) :
    (∀ i : Fin 24, p.length ≤ i → p.array[i] = 0) ∧
    (p = q ↔ p.significant = q.significant) ∧
    (∀ m n, 1 ≤ m → 1 ≤ n → (p.trim n).trim m = p.trim (min m n)) ∧
    (p.length ≤ q.length → (p.agrees q = true ↔ p.significant <:+ q.significant)) ∧
    (q.length ≤ p.length → (p.agrees q = true ↔ q.significant <:+ p.significant)) ∧
    (p.endsWith q = true ↔ q.length ≤ p.length ∧ p.agrees q = true) ∧
    (9 ≤ p.length → 9 ≤ q.length → p.agrees q = true → p.storeKey = q.storeKey) ∧
    ∃ a b : VBlake, a.toPadded = p ∧ b.toPadded = q ∧ (a = b ↔ p = q) ∧
      a.agrees b = p.agrees q ∧ a.endsWith b = p.endsWith q ∧
      ∀ n, (a.trim n).toPadded = p.trim n := by
  obtain ⟨a, rfl⟩ := hp.exists_toPadded
  obtain ⟨b, rfl⟩ := hq.exists_toPadded
  simp only [length_toPadded, significant_toPadded, toPadded_agrees, toPadded_endsWith,
    toPadded_injective.eq_iff]
  refine ⟨a.toPadded_array_eq_zero, ⟨congrArg VBlake.bytes, ext_bytes⟩, fun m n hm hn ↦ ?_,
    agrees_iff_suffix, fun hle ↦ ?_, ?_, fun ha hb hagrees ↦ ?_, a, b, rfl, rfl, Iff.rfl, rfl, rfl,
    toPadded_trim a⟩
  · rw [← toPadded_trim, ← toPadded_trim, ← toPadded_trim, trim_trim a hm hn]
  · rw [agrees_comm, agrees_iff_suffix hle]
  · rw [agrees_comm, endsWith_iff]
  · rw [← toPadded_storeKey, ← toPadded_storeKey, storeKey_eq_of_agrees ha hb hagrees]

def twelve : PaddedHash where
  size := 12
  array := overwrite zeros (List.replicate 6 1 ++ List.replicate 6 2)

/-- Twelve bytes and the last ten of them, moved to the front of another array. -/
theorem twelve_end_with_ten :
    Built twelve ∧ twelve.length = 12 ∧ (twelve.trim 10).length = 10 ∧
      twelve.agrees (twelve.trim 10) = true ∧ twelve ≠ twelve.trim 10 ∧
      twelve.endsWith (twelve.trim 10) = true ∧ twelve.storeKey = (twelve.trim 10).storeKey := by
  have hbytes : PaddedHash.ofBytes (List.replicate 6 1 ++ List.replicate 6 2) = .ok twelve := rfl
  have hbuilt : Built twelve := .ofBytes hbytes
  have hagrees : twelve.agrees (twelve.trim 10) = true := by decide +kernel
  obtain ⟨-, heq, -, -, -, hends, hkey, -⟩ :=
    padded_compare_as_suffixes hbuilt (hbuilt.trim 10)
  exact ⟨hbuilt, rfl, rfl, hagrees, heq.not.mpr (by decide +kernel),
    hends.mpr ⟨by decide, hagrees⟩, hkey (by decide) (by decide) hagrees⟩

end PaddedHash

end EndorsedChain
