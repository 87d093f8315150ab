import EndorsedChain.Bytes.Reader
import Mathlib.Tactic.Ring

/-!
# Self-delimiting byte strings

A reader *reads* a value from a byte string if it finds that value in front of anything that may
follow, and leaves exactly that.  Packed values are concatenations, and their readers are sequences
of smaller readers, so `Reads.bind` carries this property from numbers to headers and entries.
-/

namespace EndorsedChain

namespace BigEndian

theorem foldl_encode (width n acc : Nat) :
    (encode width n).foldl (fun n b ↦ n * 256 + b.toNat) acc =
      acc * 256 ^ width + n % 256 ^ width := by
  induction width generalizing acc with
  | zero => simp [Nat.mod_one]
  | succ width ih =>
    have hbyte : (UInt8.ofNat (n >>> (8 * width))).toNat = n / 256 ^ width % 256 := by
      rw [UInt8.toNat_ofNat', Nat.shiftRight_eq_div_pow, Nat.pow_mul]
    have hmod : n % 256 ^ (width + 1) = n / 256 ^ width % 256 * 256 ^ width + n % 256 ^ width := by
      rw [Nat.pow_succ, Nat.mod_mul, Nat.mul_comm (256 ^ width), Nat.add_comm]
    rw [encode, List.foldl_cons, ih, hbyte, hmod]
    ring

/-- Encoding keeps the low bytes of a number. -/
theorem decode_encode (width n : Nat) : decode (encode width n) = n % 256 ^ width := by
  rw [decode, foldl_encode, Nat.zero_mul, Nat.zero_add]

theorem lt_pow_width (n : Nat) : n < 256 ^ width n := by
  have hexp : n.log2 + 1 ≤ 8 * width n := by unfold width; omega
  calc
    n < 2 ^ (n.log2 + 1) := Nat.lt_log2_self
    _ ≤ 2 ^ (8 * width n) := Nat.pow_le_pow_right (by decide) hexp
    _ = 256 ^ width n := by rw [Nat.pow_mul]

theorem width_mono {m n : Nat} (hle : m ≤ n) : width m ≤ width n := by
  have hlog : m.log2 ≤ n.log2 := by
    by_cases hm : m = 0
    · rw [hm, Nat.log2_zero]
      exact Nat.zero_le _
    · exact (Nat.le_log2 (by omega)).mpr (Nat.le_trans (Nat.log2_self_le hm) hle)
  unfold width
  omega

@[simp] theorem decode_minimal (n : Nat) : decode (minimal n) = n := by
  rw [minimal, decode_encode, Nat.mod_eq_of_lt (lt_pow_width n)]

theorem foldl_decode_lt {bytes : List UInt8} {acc bound : Nat} (hacc : acc < bound) :
    bytes.foldl (fun n b ↦ n * 256 + b.toNat) acc < bound * 256 ^ bytes.length := by
  induction bytes generalizing acc bound with
  | nil => simpa using hacc
  | cons b bytes ih =>
    have hbyte := b.toNat_lt
    rw [List.foldl_cons, List.length_cons, Nat.pow_succ', ← Nat.mul_assoc]
    exact ih (by omega)

/-- What is read from some bytes needs no more of them, but always one. -/
theorem width_decode_le (bytes : List UInt8) : width (decode bytes) ≤ max 1 bytes.length := by
  by_cases hzero : decode bytes = 0
  · rw [hzero]
    exact Nat.le_max_left 1 _
  · have hlt : decode bytes < 1 * 256 ^ bytes.length := foldl_decode_lt (by decide)
    have hlog : (decode bytes).log2 < 8 * bytes.length := by
      rw [Nat.log2_lt hzero, Nat.pow_mul]
      simpa using hlt
    unfold width
    omega

end BigEndian

namespace Reader

variable {α β : Type}

/-- Reads `a` from `bytes`, whatever follows. -/
def Reads (r : Reader α) (bytes : List UInt8) (a : α) : Prop :=
  ∀ rest, r (bytes ++ rest) = (.ok a, rest)

theorem Reads.pure (a : α) : (Pure.pure a : Reader α).Reads [] a := fun _ ↦ rfl

theorem Reads.bind {r : Reader α} {f : α → Reader β} {front back : List UInt8} {a : α} {b : β}
    (hr : r.Reads front a) (hf : (f a).Reads back b) : (r >>= f).Reads (front ++ back) b := by
  intro rest
  rw [List.append_assoc, bind_ok (hr _), hf]

/-- What comes after the last byte is read from nothing. -/
theorem Reads.bind_nil {r : Reader α} {f : α → Reader β} {bytes : List UInt8} {a : α} {b : β}
    (hr : r.Reads bytes a) (hf : (f a).Reads [] b) : (r >>= f).Reads bytes b := by
  have h := hr.bind hf
  rwa [List.append_nil] at h

theorem Reads.ofExcept {result : Except ReadError α} {a : α} (h : result = .ok a) :
    (Reader.ofExcept result).Reads [] a := fun _ ↦ by rw [Reader.ofExcept, h, List.nil_append]

/-- A string that is all there is to read is read to its end. -/
theorem Reads.readAll {r : Reader α} {bytes : List UInt8} {a : α} (h : r.Reads bytes a) :
    r.readAll bytes = .ok a := by
  have hend : r bytes = (.ok a, []) := by simpa using h []
  unfold Reader.readAll
  rw [bind_ok hend]
  rfl

theorem reads_take (bytes : List UInt8) : (take bytes.length).Reads bytes bytes :=
  fun rest ↦ take_append bytes rest

theorem reads_take_of_length {bytes : List UInt8} {n : Nat} (h : bytes.length = n) :
    (take n).Reads bytes bytes := h ▸ reads_take bytes

theorem reads_u8 (n : UInt8) : u8.Reads (BigEndian.u8 n) n := by
  have h := (reads_take (BigEndian.u8 n)).bind_nil
    (f := fun bytes ↦ Pure.pure (UInt8.ofNat (BigEndian.decode bytes))) (Reads.pure _)
  rwa [show BigEndian.decode (BigEndian.u8 n) = n.toNat by simp [BigEndian.decode, BigEndian.u8],
    UInt8.ofNat_toNat] at h

theorem reads_u16 (n : UInt16) : u16.Reads (BigEndian.u16 n) n := by
  have h := (reads_take_of_length (BigEndian.length_u16 n)).bind_nil
    (f := fun bytes ↦ Pure.pure (UInt16.ofNat (BigEndian.decode bytes))) (Reads.pure _)
  have hlt : n.toNat < 256 ^ 2 := n.toNat_lt
  rwa [BigEndian.u16, BigEndian.decode_encode, Nat.mod_eq_of_lt hlt, UInt16.ofNat_toNat] at h

theorem reads_u32 (n : UInt32) : u32.Reads (BigEndian.u32 n) n := by
  have h := (reads_take_of_length (BigEndian.length_u32 n)).bind_nil
    (f := fun bytes ↦ Pure.pure (UInt32.ofNat (BigEndian.decode bytes))) (Reads.pure _)
  have hlt : n.toNat < 256 ^ 4 := n.toNat_lt
  rwa [BigEndian.u32, BigEndian.decode_encode, Nat.mod_eq_of_lt hlt, UInt32.ofNat_toNat] at h

theorem bind_eq_ok {r : Reader α} {f : α → Reader β} {bytes rest : List UInt8} {b : β}
    (h : (r >>= f) bytes = (.ok b, rest)) :
    ∃ a left, r bytes = (.ok a, left) ∧ f a left = (.ok b, rest) := by
  cases hr : r bytes with
  | mk result left =>
    cases result with
    | error e =>
      rw [bind_error hr] at h
      cases h
    | ok a =>
      rw [bind_ok hr] at h
      exact ⟨a, left, rfl, h⟩

theorem length_of_take {n : Nat} {bytes front rest : List UInt8}
    (h : take n bytes = (.ok front, rest)) : front.length = n := by
  unfold take at h
  split at h
  · cases h
  · rename_i hlen
    cases h
    rw [List.length_take]
    omega

theorem length_le_of_sized {bytes front rest : List UInt8}
    (h : sized bytes = (.ok front, rest)) : front.length ≤ 255 := by
  obtain ⟨size, left, -, htake⟩ := bind_eq_ok h
  have hsize := size.toNat_lt
  rw [length_of_take htake]
  omega

/-- What has a sized form is read back from it. -/
theorem reads_sized {bytes packed : List UInt8} (h : packSized? bytes = some packed) :
    sized.Reads packed bytes := by
  unfold packSized? at h
  split at h
  · rename_i hlen
    cases h
    have hsize : (UInt8.ofNat bytes.length).toNat = bytes.length := by
      rw [UInt8.toNat_ofNat', Nat.mod_eq_of_lt (by omega)]
    have hrest : (take (UInt8.ofNat bytes.length).toNat).Reads bytes bytes := by
      rw [hsize]
      exact reads_take bytes
    exact (reads_u8 _).bind hrest
  · cases h

end Reader

end EndorsedChain
