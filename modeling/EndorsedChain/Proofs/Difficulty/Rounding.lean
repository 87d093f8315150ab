import EndorsedChain.Difficulty.Compact
import EndorsedChain.Proofs.Bytes.Reads
import Mathlib.Tactic.Ring

/-!
# What compact difficulties keep

A compact difficulty keeps the leading bytes of a value, and no bit of them may stand where the sign
does.  So it has as many bytes as twice the value has, and keeps the first three of them: the value
is rounded down to a multiple of the byte that is kept last.
-/

namespace EndorsedChain

theorem BigEndian.pow_le_of_pos {n : Nat} (hn : 0 < n) : 256 ^ (width n - 1) ≤ n := by
  have hexp : 8 * (width n - 1) ≤ n.log2 := by unfold width; omega
  calc 256 ^ (width n - 1) = 2 ^ (8 * (width n - 1)) := by rw [Nat.pow_mul]
    _ ≤ 2 ^ n.log2 := Nat.pow_le_pow_right (by decide) hexp
    _ ≤ n := Nat.log2_self_le (by omega)

theorem BigEndian.width_le_iff {n k : Nat} (hk : 0 < k) : width n ≤ k ↔ n < 256 ^ k := by
  constructor
  · intro hle
    exact (lt_pow_width n).trans_le (Nat.pow_le_pow_right (by decide) hle)
  · intro hlt
    by_contra hgt
    have hn : 0 < n := by
      rcases Nat.eq_zero_or_pos n with rfl | hn
      · exact absurd hk (by simpa [width] using hgt)
      · exact hn
    have hle : 256 ^ k ≤ 256 ^ (width n - 1) := Nat.pow_le_pow_right (by decide) (by omega)
    exact absurd (hle.trans (pow_le_of_pos hn)) (Nat.not_le.mpr hlt)

namespace Compact

open BigEndian

variable {v w : Nat}

/-! ## Rounding -/

/-- How many bytes a value has with a bit for its sign. -/
def signedWidth (v : Nat) : Nat := width (2 * v)

/-- What the last byte counts that is kept. -/
def unit (v : Nat) : Nat := 256 ^ (signedWidth v - 3)

def rounded (v : Nat) : Nat := v / unit v * unit v

theorem signedWidth_pos (v : Nat) : 0 < signedWidth v := width_pos _

theorem unit_pos (v : Nat) : 0 < unit v := Nat.pow_pos (by decide)

theorem rounded_le (v : Nat) : rounded v ≤ v := Nat.div_mul_le_self v (unit v)

theorem lt_rounded_add (v : Nat) : v < rounded v + unit v := by
  have hdiv := Nat.div_add_mod' v (unit v)
  have hmod := Nat.mod_lt v (unit_pos v)
  unfold rounded
  omega

theorem unit_dvd_rounded (v : Nat) : unit v ∣ rounded v := Nat.dvd_mul_left _ _

/-- Nothing between the rounded value and the value is a multiple of the unit. -/
theorem le_rounded {m : Nat} (hdvd : unit v ∣ m) (hle : m ≤ v) : m ≤ rounded v := by
  obtain ⟨k, rfl⟩ := hdvd
  rw [Nat.mul_comm]
  refine Nat.mul_le_mul_right _ ((Nat.le_div_iff_mul_le (unit_pos v)).mpr ?_)
  rwa [Nat.mul_comm]

theorem unit_eq_one (h : signedWidth v ≤ 3) : unit v = 1 := by
  rw [unit, Nat.sub_eq_zero_of_le h, Nat.pow_zero]

theorem rounded_eq_self (h : signedWidth v ≤ 3) : rounded v = v := by
  rw [rounded, unit_eq_one h, Nat.div_one, Nat.mul_one]

/-- What begins with a byte after the sign is `2 ^ 15` units at least. -/
theorem half_pow_eq (h : 3 < signedWidth v) :
    256 ^ (signedWidth v - 1) = 2 * (2 ^ 15 * unit v) := by
  obtain ⟨k, hk⟩ := Nat.exists_eq_add_of_lt h
  rw [unit, hk, show 3 + k + 1 - 1 = 3 + k by omega, show 3 + k + 1 - 3 = k + 1 by omega]
  ring

theorem mul_unit_le (h : 3 < signedWidth v) : 2 ^ 15 * unit v ≤ v := by
  have hv : 0 < 2 * v := by
    rcases Nat.eq_zero_or_pos v with rfl | hv
    · exact absurd h (by decide)
    · omega
  have hpow : 256 ^ (signedWidth v - 1) ≤ 2 * v := pow_le_of_pos hv
  rw [half_pow_eq h] at hpow
  omega

theorem mul_unit_le_rounded (h : 3 < signedWidth v) : 2 ^ 15 * unit v ≤ rounded v :=
  le_rounded (Nat.dvd_mul_left _ _) (mul_unit_le h)

theorem rounded_pos (hv : 0 < v) : 0 < rounded v := by
  rcases Nat.lt_or_ge 3 (signedWidth v) with h | h
  · have hle := mul_unit_le_rounded h
    have hpos := unit_pos v
    omega
  · rwa [rounded_eq_self h]

/-- Less than a `2 ^ 15`th of the value is lost. -/
theorem mul_le_rounded_mul (v : Nat) : v * 2 ^ 15 ≤ rounded v * (2 ^ 15 + 1) := by
  rcases Nat.lt_or_ge 3 (signedWidth v) with h | h
  · have hlt := lt_rounded_add v
    have hle := mul_unit_le_rounded h
    omega
  · rw [rounded_eq_self h]
    omega

theorem signedWidth_mono (hle : v ≤ w) : signedWidth v ≤ signedWidth w :=
  width_mono (Nat.mul_le_mul_left 2 hle)

theorem rounded_mono (hle : v ≤ w) : rounded v ≤ rounded w := by
  rcases (signedWidth_mono hle).eq_or_lt with hwidth | hwidth
  · refine le_rounded ?_ ((rounded_le v).trans hle)
    rw [unit, ← hwidth]
    exact unit_dvd_rounded v
  · rcases Nat.lt_or_ge 3 (signedWidth w) with h | h
    · -- the wider value is above the power of two that lies between them
      have hv : 2 * v < 256 ^ (signedWidth w - 1) :=
        (width_le_iff (by omega)).mp (Nat.le_sub_one_of_lt hwidth)
      rw [half_pow_eq h] at hv
      have hw := mul_unit_le_rounded h
      have hrounded := rounded_le v
      omega
    · rw [rounded_eq_self h]
      exact (rounded_le v).trans hle

/-- What begins with a byte after the sign still does. -/
@[simp] theorem signedWidth_rounded (v : Nat) : signedWidth (rounded v) = signedWidth v := by
  rcases Nat.lt_or_ge 3 (signedWidth v) with h | h
  · refine Nat.le_antisymm (signedWidth_mono (rounded_le v)) ?_
    by_contra hlt
    have hv : 2 * rounded v < 256 ^ (signedWidth v - 1) :=
      (width_le_iff (by omega)).mp (Nat.le_sub_one_of_lt (Nat.not_le.mp hlt))
    rw [half_pow_eq h] at hv
    have hw := mul_unit_le_rounded h
    omega
  · rw [rounded_eq_self h]

@[simp] theorem rounded_rounded (v : Nat) : rounded (rounded v) = rounded v := by
  refine Nat.le_antisymm (rounded_le _) (le_rounded ?_ le_rfl)
  rw [unit, signedWidth_rounded]
  exact unit_dvd_rounded v

/-! ## The compact form -/

theorem shiftLeft_bytes (v k : Nat) : v <<< (8 * k) = v * 256 ^ k := by
  rw [Nat.shiftLeft_eq, Nat.pow_mul]

theorem shiftRight_bytes (v k : Nat) : v >>> (8 * k) = v / 256 ^ k := by
  rw [Nat.shiftRight_eq_div_pow, Nat.pow_mul]

/-- One of the two powers is 1. -/
theorem leading_eq (size v : Nat) :
    leading size v = v * 256 ^ (3 - size) / 256 ^ (size - 3) := by
  unfold leading
  split
  · rename_i hle
    rw [shiftLeft_bytes, Nat.sub_eq_zero_of_le hle, Nat.pow_zero, Nat.div_one]
  · rename_i hgt
    rw [shiftRight_bytes, Nat.sub_eq_zero_of_le (Nat.le_of_not_le hgt), Nat.pow_zero, Nat.mul_one]

theorem expand_eq (size word : Nat) :
    expand size word = word * 256 ^ (size - 3) / 256 ^ (3 - size) := by
  unfold expand
  split
  · rename_i hle
    rw [shiftRight_bytes, Nat.sub_eq_zero_of_le hle, Nat.pow_zero, Nat.mul_one]
  · rename_i hgt
    rw [shiftLeft_bytes, Nat.sub_eq_zero_of_le (Nat.le_of_not_le hgt), Nat.pow_zero, Nat.div_one]

theorem leading_succ (size v : Nat) : leading (size + 1) v = leading size v / 256 := by
  rw [leading_eq, leading_eq, Nat.div_div_eq_div_mul]
  rcases Nat.lt_or_ge size 3 with h | h
  · rw [show 3 - size = 3 - (size + 1) + 1 by omega, Nat.pow_succ, ← Nat.mul_assoc,
      Nat.mul_div_mul_right _ _ (by decide), Nat.sub_eq_zero_of_le h,
      Nat.sub_eq_zero_of_le (Nat.le_of_lt h)]
  · rw [show size + 1 - 3 = size - 3 + 1 by omega, Nat.pow_succ, Nat.sub_eq_zero_of_le h,
      Nat.sub_eq_zero_of_le (Nat.le_succ_of_le h)]

/-- There is room for the sign. -/
theorem leading_signedWidth_lt (v : Nat) : leading (signedWidth v) v < 0x800000 := by
  rw [leading_eq, Nat.div_lt_iff_lt_mul (Nat.pow_pos (by decide))]
  have hv : 2 * v * 256 ^ (3 - signedWidth v) <
      256 ^ signedWidth v * 256 ^ (3 - signedWidth v) :=
    Nat.mul_lt_mul_of_pos_right (lt_pow_width (2 * v)) (Nat.pow_pos (by decide))
  rw [← Nat.pow_add, show signedWidth v + (3 - signedWidth v) = 3 + (signedWidth v - 3) by omega,
    Nat.pow_add, Nat.mul_assoc] at hv
  omega

theorem le_leading_signedWidth (hv : 0 < v) : 0x8000 ≤ leading (signedWidth v) v := by
  rw [leading_eq, Nat.le_div_iff_mul_le (Nat.pow_pos (by decide))]
  have hwidth := signedWidth_pos v
  have hpow : 256 ^ (signedWidth v - 1) * 256 ^ (3 - signedWidth v) ≤
      2 * v * 256 ^ (3 - signedWidth v) :=
    Nat.mul_le_mul_right _ (pow_le_of_pos (by omega))
  rw [← Nat.pow_add,
    show signedWidth v - 1 + (3 - signedWidth v) = 2 + (signedWidth v - 3) by omega,
    Nat.pow_add, Nat.mul_assoc] at hpow
  omega

theorem width_le_signedWidth (v : Nat) : width v ≤ signedWidth v :=
  width_mono (Nat.le_mul_of_pos_left v (by decide))

theorem signedWidth_le_width_add_one (v : Nat) : signedWidth v ≤ width v + 1 := by
  refine (width_le_iff (Nat.succ_pos _)).mpr ?_
  have hlt := lt_pow_width v
  rw [Nat.pow_succ]
  omega

/-- The byte for the sign is added where it is needed. -/
theorem signedWidth_eq (hv : 0 < v) :
    signedWidth v = if 0x800000 ≤ leading (width v) v then width v + 1 else width v := by
  have hroom := leading_signedWidth_lt v
  have hfull := le_leading_signedWidth hv
  rcases (width_le_signedWidth v).eq_or_lt with hwidth | hwidth
  · rw [if_neg (by rw [hwidth]; omega), hwidth]
  · have hsucc : signedWidth v = width v + 1 :=
      Nat.le_antisymm (signedWidth_le_width_add_one v) hwidth
    rw [hsucc, leading_succ] at hfull
    rw [if_pos (by omega), hsucc]

theorem encode_eq (hv : 0 < v) :
    encode v = UInt32.ofNat (signedWidth v * 0x1000000 + leading (signedWidth v) v) := by
  have hwidth := signedWidth_eq hv
  unfold encode
  rw [if_neg (by omega)]
  dsimp only
  split
  · rename_i hsign
    rw [if_pos hsign] at hwidth
    rw [hwidth, leading_succ]
  · rename_i hsign
    rw [if_neg hsign] at hwidth
    rw [hwidth]

theorem expand_leading (v : Nat) :
    expand (signedWidth v) (leading (signedWidth v) v) = rounded v := by
  rw [expand_eq, leading_eq, rounded, unit]
  rcases Nat.lt_or_ge (signedWidth v) 3 with h | h
  · rw [Nat.sub_eq_zero_of_le (Nat.le_of_lt h), Nat.pow_zero, Nat.div_one, Nat.mul_one, Nat.div_one,
      Nat.mul_one, Nat.mul_div_cancel _ (Nat.pow_pos (by decide))]
  · rw [Nat.sub_eq_zero_of_le h, Nat.pow_zero, Nat.div_one, Nat.mul_one]

theorem decode_ofNat {size word : Nat} (hsize : size ≤ 255) (hword : word < 0x800000)
    (hpos : 0 < expand size word) :
    decode (UInt32.ofNat (size * 0x1000000 + word)) = .ok (expand size word) := by
  have htoNat : (UInt32.ofNat (size * 0x1000000 + word)).toNat = size * 0x1000000 + word :=
    UInt32.toNat_ofNat_of_lt' (by simp only [UInt32.size]; omega)
  have hsizes : (size * 0x1000000 + word) / 0x1000000 = size := by omega
  have hwords : (size * 0x1000000 + word) % 0x1000000 = word := by omega
  unfold decode
  rw [htoNat, hsizes, hwords]
  dsimp only
  rw [if_neg (by omega), if_neg (by omega)]

/-- What is decoded again is the value as far as it was kept. -/
theorem decode_encode (hv : 0 < v) (hwidth : signedWidth v ≤ 255) :
    decode (encode v) = .ok (rounded v) := by
  rw [encode_eq hv, ← expand_leading]
  refine decode_ofNat hwidth (leading_signedWidth_lt v) ?_
  rw [expand_leading]
  exact rounded_pos hv

/-- A value of one byte too many loses its size, and without it nothing is left. -/
theorem decode_encode_of_wrap (hv : 0 < v) (hwidth : signedWidth v = 256) :
    decode (encode v) = .error (.zero (encode v)) := by
  have hlt := leading_signedWidth_lt v
  have htoNat : (encode v).toNat = leading (signedWidth v) v := by
    rw [encode_eq hv, UInt32.toNat_ofNat']
    omega
  have hsize : (encode v).toNat / 0x1000000 = 0 := by omega
  have hword : (encode v).toNat % 0x1000000 = leading (signedWidth v) v := by omega
  have hnothing : expand 0 (leading (signedWidth v) v) = 0 := by
    rw [expand_eq]
    exact Nat.div_eq_of_lt (by omega)
  unfold decode
  rw [hsize, hword]
  dsimp only
  rw [if_neg (by omega), if_pos hnothing]

theorem eq_rounded_of_decode (hv : 0 < v) (hwidth : signedWidth v ≤ 256)
    (h : decode (encode v) = .ok w) : w = rounded v := by
  rcases hwidth.eq_or_lt with hwrap | hlt
  · rw [decode_encode_of_wrap hv hwrap] at h
    cases h
  · rw [decode_encode hv (Nat.le_of_lt_succ hlt)] at h
    exact (Except.ok.inj h).symm

/-! ## Values that have a compact form -/

theorem two_mul_expand_lt {word : Nat} (hword : word < 0x800000) (size : Nat) :
    2 * expand size word < 256 ^ size := by
  have hle : expand size word * 256 ^ (3 - size) ≤ word * 256 ^ (size - 3) := by
    rw [expand_eq]
    exact Nat.div_mul_le_self _ _
  have hpow : 256 ^ size * 256 ^ (3 - size) = 256 ^ 3 * 256 ^ (size - 3) := by
    rw [← Nat.pow_add, ← Nat.pow_add, show size + (3 - size) = 3 + (size - 3) by omega]
  refine Nat.lt_of_mul_lt_mul_right (a := 256 ^ (3 - size)) ?_
  calc 2 * expand size word * 256 ^ (3 - size) ≤ 2 * word * 256 ^ (size - 3) := by
        rw [Nat.mul_assoc, Nat.mul_assoc]
        exact Nat.mul_le_mul_left 2 hle
    _ < 256 ^ 3 * 256 ^ (size - 3) :=
        Nat.mul_lt_mul_of_pos_right (by omega) (Nat.pow_pos (by decide))
    _ = 256 ^ size * 256 ^ (3 - size) := hpow.symm

/-- What is expanded has no bytes that would be lost. -/
theorem rounded_expand {word : Nat} (hword : word < 0x800000) (size : Nat) :
    rounded (expand size word) = expand size word := by
  have hlt := two_mul_expand_lt hword size
  rcases Nat.lt_or_ge 3 size with h | h
  · refine Nat.le_antisymm (rounded_le _) (le_rounded ?_ le_rfl)
    have hwidth : signedWidth (expand size word) ≤ size := (width_le_iff (by omega)).mpr hlt
    have hexpand : expand size word = word * 256 ^ (size - 3) := by
      rw [expand_eq, Nat.sub_eq_zero_of_le h.le, Nat.pow_zero, Nat.div_one]
    rw [hexpand] at hwidth ⊢
    exact Dvd.dvd.mul_left (Nat.pow_dvd_pow 256 (Nat.sub_le_sub_right hwidth 3)) word
  · refine rounded_eq_self ((width_le_iff (by decide)).mpr ?_)
    exact hlt.trans_le (Nat.pow_le_pow_right (by decide) h)

theorem exists_expand_of_decode {bits : UInt32} (h : decode bits = .ok v) :
    ∃ size word, size ≤ 255 ∧ word < 0x800000 ∧ v = expand size word := by
  have hbits := bits.toNat_lt
  refine ⟨bits.toNat / 0x1000000, bits.toNat % 0x1000000, by omega, ?_⟩
  simp only [decode] at h
  split at h
  · cases h
  · rename_i hword
    split at h
    · cases h
    · cases h
      exact ⟨by omega, rfl⟩

/-- The size is a byte, so that the values have 255 bytes with their sign at most. -/
theorem two_mul_lt_of_decode {bits : UInt32} (h : decode bits = .ok v) : 2 * v < 256 ^ 255 := by
  obtain ⟨size, word, hsize, hword, rfl⟩ := exists_expand_of_decode h
  exact (two_mul_expand_lt hword size).trans_le (Nat.pow_le_pow_right (by decide) hsize)

theorem exists_decode_iff (hv : 0 < v) (hwidth : signedWidth v ≤ 255) :
    (∃ bits, decode bits = .ok v) ↔ rounded v = v := by
  constructor
  · rintro ⟨bits, h⟩
    obtain ⟨size, word, -, hword, rfl⟩ := exists_expand_of_decode h
    exact rounded_expand hword size
  · intro hrounded
    exact ⟨encode v, by rw [decode_encode hv hwidth, hrounded]⟩

end Compact

end EndorsedChain
