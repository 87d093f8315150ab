import EndorsedChain.Proofs.Bytes.Recognizes
import EndorsedChain.Proofs.Difficulty.Rounding

/-!
# Compact forms as leading bytes

In bytes, rounding down sets all but the leading bytes of a value to zero: three of them stay, or
two if the first one has its highest bit set, where the sign stands.  What a compact form denotes is
a value cut in this way, which has the same form again, and the forms are in the order of what they
denote (`encode_le_encode_iff`).
-/

namespace EndorsedChain

namespace BigEndian

theorem decode_append (front back : List UInt8) :
    decode (front ++ back) = decode front * 256 ^ back.length + decode back := by
  rw [decode, List.foldl_append, foldl_decode]
  rfl

@[simp] theorem decode_zeros (n : Nat) : decode (List.replicate n 0) = 0 := by
  induction n with
  | zero => rfl
  | succ n ih => rw [List.replicate_succ, decode_cons, ih, UInt8.toNat_zero, Nat.zero_mul]

/-- The first `kept` bytes, with zeros in the place of the others. -/
def cut (kept : Nat) (bytes : List UInt8) : List UInt8 :=
  bytes.take kept ++ List.replicate (bytes.length - kept) 0

/-- Cutting bytes off rounds down to a multiple of what the last byte kept stands for. -/
theorem decode_cut (kept : Nat) (bytes : List UInt8) :
    decode (cut kept bytes) =
      decode bytes / 256 ^ (bytes.length - kept) * 256 ^ (bytes.length - kept) := by
  have hdrop : decode (bytes.drop kept) < 256 ^ (bytes.length - kept) := by
    have hlt := decode_lt (bytes.drop kept)
    rwa [List.length_drop] at hlt
  have hsplit : decode bytes =
      decode (bytes.take kept) * 256 ^ (bytes.length - kept) + decode (bytes.drop kept) := by
    conv_lhs => rw [← List.take_append_drop kept bytes]
    rw [decode_append, List.length_drop]
  have hquotient : decode bytes / 256 ^ (bytes.length - kept) = decode (bytes.take kept) := by
    rw [hsplit, Nat.mul_comm, Nat.mul_add_div (Nat.pow_pos (by decide)), Nat.div_eq_of_lt hdrop,
      Nat.add_zero]
  rw [cut, decode_append, decode_zeros, Nat.add_zero, List.length_replicate, hquotient]

/-- The highest bit of the first byte is that of the number. -/
theorem sign_le_head_iff {bytes : List UInt8} (hne : bytes ≠ []) :
    0x80 ≤ bytes.headD 0 ↔ 256 ^ bytes.length ≤ 2 * decode bytes := by
  obtain ⟨b, rest, rfl⟩ := List.exists_cons_of_ne_nil hne
  have hrest := decode_lt rest
  rw [List.headD_cons, UInt8.le_iff_toNat_le, decode_cons, List.length_cons, Nat.pow_succ]
  constructor
  · intro hsign
    have hmul := Nat.mul_le_mul_right (256 ^ rest.length) (show 128 ≤ b.toNat from hsign)
    omega
  · intro hle
    by_contra hsign
    have hmul := Nat.mul_le_mul_right (256 ^ rest.length)
      (show b.toNat ≤ 127 from Nat.le_of_lt_succ (Nat.not_le.mp hsign))
    omega

end BigEndian

namespace Compact

open BigEndian

variable {v w : Nat}

/-! ## Leading bytes -/

/-- How many bytes of a value a compact form has room for. -/
def keptBytes (v : Nat) : Nat := if 0x80 ≤ (minimal v).headD 0 then 2 else 3

/-- A value with zeros in the place of all bytes that a compact form has no room for. -/
def truncated (v : Nat) : Nat := BigEndian.decode (cut (keptBytes v) (minimal v))

theorem sign_le_minimal_head_iff (v : Nat) :
    0x80 ≤ (minimal v).headD 0 ↔ signedWidth v = width v + 1 := by
  have hne : minimal v ≠ [] := List.ne_nil_of_length_pos (by simp [width_pos])
  have hlow := width_le_signedWidth v
  have hhigh := signedWidth_le_width_add_one v
  have hiff : signedWidth v ≤ width v ↔ 2 * v < 256 ^ width v := width_le_iff (width_pos v)
  rw [sign_le_head_iff hne, decode_minimal, length_minimal]
  omega

/-- A byte for the sign in front leaves room for one byte less. -/
theorem width_sub_keptBytes (v : Nat) : width v - keptBytes v = signedWidth v - 3 := by
  have hlow := width_le_signedWidth v
  have hhigh := signedWidth_le_width_add_one v
  have hsign := sign_le_minimal_head_iff v
  unfold keptBytes
  split
  · rename_i h
    rw [hsign.mp h]
    omega
  · rename_i h
    have hwidth : signedWidth v ≠ width v + 1 := fun heq ↦ h (hsign.mpr heq)
    omega

theorem truncated_eq_rounded (v : Nat) : truncated v = rounded v := by
  rw [truncated, decode_cut, decode_minimal, length_minimal, width_sub_keptBytes]
  rfl

/-- What is lost is less than a `2 ^ 15`th of what is kept. -/
theorem mul_sub_rounded_lt (hv : 0 < v) : 2 ^ 15 * (v - rounded v) < rounded v := by
  rcases Nat.lt_or_ge 3 (signedWidth v) with h | h
  · have hlt := lt_rounded_add v
    have hle := mul_unit_le_rounded h
    omega
  · rw [rounded_eq_self h]
    omega

/-- The highest bit is left to the sign. -/
theorem signedWidth_le_iff {size : Nat} (hsize : 0 < size) :
    signedWidth v ≤ size ↔ v < 2 ^ (8 * size - 1) := by
  have hpow : 256 ^ size = 2 * 2 ^ (8 * size - 1) :=
    calc 256 ^ size = 2 ^ (8 * size) := by rw [Nat.pow_mul]
      _ = 2 ^ (8 * size - 1 + 1) := by rw [Nat.sub_add_cancel (by omega)]
      _ = 2 * 2 ^ (8 * size - 1) := Nat.pow_succ'
  rw [signedWidth, width_le_iff hsize, hpow]
  omega

/-- What can be encoded without loss of its size. -/
theorem signedWidth_le_255_iff : signedWidth v ≤ 255 ↔ v < 2 ^ 2039 := by
  have hiff := signedWidth_le_iff (v := v) (show 0 < 255 by decide)
  rwa [show 8 * 255 - 1 = 2039 from rfl] at hiff

/-! ## Forms of rounded values -/

theorem leading_rounded (v : Nat) :
    leading (signedWidth v) (rounded v) = leading (signedWidth v) v := by
  rcases Nat.lt_or_ge 3 (signedWidth v) with h | h
  · rw [leading_eq, leading_eq, Nat.sub_eq_zero_of_le h.le, Nat.pow_zero, Nat.mul_one, Nat.mul_one]
    exact Nat.mul_div_cancel _ (unit_pos v)
  · rw [rounded_eq_self h]

@[simp] theorem encode_rounded (v : Nat) : encode (rounded v) = encode v := by
  rcases Nat.eq_zero_or_pos v with rfl | hv
  · rfl
  · rw [encode_eq (rounded_pos hv), encode_eq hv, signedWidth_rounded, leading_rounded]

/-- What a compact form denotes has a form that denotes it, be it the same form or not. -/
theorem decode_encode_of_decode {bits : UInt32} (h : decode bits = .ok v) :
    decode (encode v) = .ok v := by
  have hwidth : signedWidth v ≤ 255 := (width_le_iff (by decide)).mpr (two_mul_lt_of_decode h)
  rw [decode_encode (decode_pos h) hwidth, (exists_decode_iff (decode_pos h) hwidth).mp ⟨bits, h⟩]

/-- Encoding keeps the leading bytes of a value, that is all but a `2 ^ 15`th of it, and everything
if the value comes from a compact form. -/
theorem encoding_truncates :
    (∀ v, 1 ≤ v → v < 2 ^ 2039 →
      decode (encode v) = .ok (truncated v) ∧ truncated v ≤ v ∧
        2 ^ 15 * (v - truncated v) < truncated v ∧ encode (truncated v) = encode v) ∧
    ∀ bits v, decode bits = .ok v → decode (encode v) = .ok v := by
  refine ⟨?truncates, fun bits v h ↦ decode_encode_of_decode h⟩
  case truncates =>
    intro v hv hlt
    rw [truncated_eq_rounded]
    exact ⟨decode_encode hv (signedWidth_le_255_iff.mpr hlt), rounded_le v, mul_sub_rounded_lt hv,
      encode_rounded v⟩

/-- A value of five bytes that would begin with the sign, and a form with zeros in front. -/
theorem sign_takes_a_byte :
    (1 ≤ 0x8123456789 ∧ 0x8123456789 < 2 ^ 2039 ∧ decode 0x03000080 = .ok 0x80) ∧
      decode (encode 0x8123456789) = .ok 0x8123000000 ∧
      2 ^ 15 * (0x8123456789 - 0x8123000000) < 0x8123000000 ∧
      encode 0x8123000000 = encode 0x8123456789 ∧ decode (encode 0x80) = .ok 0x80 := by
  have hlt : 0x8123456789 < 2 ^ 2039 := signedWidth_le_255_iff.mp (by decide)
  have htruncated : truncated 0x8123456789 = 0x8123000000 := by decide +kernel
  have hform : decode 0x03000080 = .ok 0x80 := by decide
  obtain ⟨hdecode, -, hloss, hencode⟩ := encoding_truncates.1 0x8123456789 (by decide) hlt
  rw [htruncated] at hdecode hloss hencode
  exact ⟨⟨by decide, hlt, hform⟩, hdecode, hloss, hencode,
    encoding_truncates.2 0x03000080 0x80 hform⟩

/-! ## The order of forms -/

theorem toNat_encode (hv : 0 < v) (hwidth : signedWidth v ≤ 255) :
    (encode v).toNat = signedWidth v * 0x1000000 + leading (signedWidth v) v := by
  have hlt := leading_signedWidth_lt v
  rw [encode_eq hv]
  exact UInt32.toNat_ofNat_of_lt' (by simp only [UInt32.size]; omega)

theorem leading_mono (size : Nat) (hle : v ≤ w) : leading size v ≤ leading size w := by
  rw [leading_eq, leading_eq]
  exact Nat.div_le_div_right (Nat.mul_le_mul_right _ hle)

/-- The size comes first in a form, and a sign bit is never set in what follows. -/
theorem encode_mono (hle : v ≤ w) (hw : signedWidth w ≤ 255) : encode v ≤ encode w := by
  rcases Nat.eq_zero_or_pos v with rfl | hv
  · exact UInt32.zero_le
  · have hwidth := signedWidth_mono hle
    have hlt := leading_signedWidth_lt v
    rw [UInt32.le_iff_toNat_le, toNat_encode hv (hwidth.trans hw), toNat_encode (by omega) hw]
    rcases hwidth.eq_or_lt with heq | hwider
    · rw [heq]
      exact Nat.add_le_add_left (leading_mono _ hle) _
    · -- one more byte in the size outweighs all leading bytes, as none of them reaches the sign
      omega

theorem rounded_eq_of_encode_eq (hv : 0 < v) (hvw : signedWidth v ≤ 255)
    (hww : signedWidth w ≤ 255) (h : encode v = encode w) : rounded v = rounded w := by
  have hdecode := decode_encode hv hvw
  rw [h] at hdecode
  rcases Nat.eq_zero_or_pos w with rfl | hw
  · cases hdecode
  · rw [decode_encode hw hww] at hdecode
    exact (Except.ok.inj hdecode).symm

theorem encode_le_encode_iff (hv : signedWidth v ≤ 255) (hw : signedWidth w ≤ 255) :
    encode v ≤ encode w ↔ rounded v ≤ rounded w := by
  constructor
  · intro hle
    by_contra hlt
    have hpos : 0 < v := (Nat.zero_le _).trans_lt ((Nat.not_le.mp hlt).trans_le (rounded_le v))
    have hge : encode w ≤ encode v := by
      rw [← encode_rounded w, ← encode_rounded v]
      exact encode_mono (Nat.le_of_not_le hlt) (by rwa [signedWidth_rounded])
    exact hlt (rounded_eq_of_encode_eq hpos hv hw (UInt32.le_antisymm hle hge)).le
  · intro hle
    rw [← encode_rounded v, ← encode_rounded w]
    exact encode_mono hle (by rwa [signedWidth_rounded])

/-- The forms of two values are never in the other order than the values, and in the order of what
is kept of them. -/
theorem encoding_keeps_order (hv : v < 2 ^ 2039) (hw : w < 2 ^ 2039) :
    (v ≤ w → encode v ≤ encode w) ∧ (encode v < encode w → v < w) ∧
      (encode v ≤ encode w ↔ truncated v ≤ truncated w) := by
  rw [← signedWidth_le_255_iff] at hv hw
  refine ⟨fun hle ↦ encode_mono hle hw, ?reflects, ?kept⟩
  case reflects =>
    intro hlt
    by_contra hge
    exact UInt32.not_le.mpr hlt (encode_mono (Nat.le_of_not_lt hge) hv)
  case kept =>
    rw [truncated_eq_rounded, truncated_eq_rounded]
    exact encode_le_encode_iff hv hw

/-- The last value of three bytes that needs no byte for the sign, and the first that does. -/
theorem size_grows_with_sign :
    (0x7fffff < 2 ^ 2039 ∧ 0x800000 < 2 ^ 2039) ∧
      encode 0x7fffff = 0x037fffff ∧ encode 0x800000 = 0x04008000 ∧
      encode 0x7fffff ≤ encode 0x800000 := by
  have hv : 0x7fffff < 2 ^ 2039 := signedWidth_le_255_iff.mp (by decide)
  have hw : 0x800000 < 2 ^ 2039 := signedWidth_le_255_iff.mp (by decide)
  exact ⟨⟨hv, hw⟩, by decide, by decide, (encoding_keeps_order hv hw).1 (by decide)⟩

end Compact

end EndorsedChain
