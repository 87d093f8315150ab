import EndorsedChain.Bytes.BigEndian
import EndorsedChain.Bytes.Hex

/-!
# Compact difficulties

A difficulty is written in 32 bits as the number of its bytes and its three leading bytes. The
highest bit of those three bytes is a sign, which no difficulty has.
-/

namespace EndorsedChain.Compact

inductive Error where
  | negative (bits : UInt32)
  | zero (bits : UInt32)
deriving DecidableEq, Repr

/-- Bits as text: eight hexadecimal digits. -/
def text (bits : UInt32) : String := "0x" ++ Hex.encode (BigEndian.u32 bits)

def Error.message : Error → String
  | .negative bits => "difficulty " ++ text bits ++ " encodes a negative value"
  | .zero bits => "difficulty " ++ text bits ++ " encodes zero"

/-- The value of a mantissa that stands for the leading bytes of `size` bytes. -/
def expand (size word : Nat) : Nat :=
  if size ≤ 3 then word >>> (8 * (3 - size)) else word <<< (8 * (size - 3))

def decode (bits : UInt32) : Except Error Nat :=
  let size := bits.toNat / 0x1000000
  let word := bits.toNat % 0x1000000
  if 0x800000 ≤ word then .error (.negative bits)
  else
    let value := expand size word
    if value = 0 then .error (.zero bits) else .ok value

/-- The three leading bytes of a value of `size` bytes. -/
def leading (size value : Nat) : Nat :=
  if size ≤ 3 then value <<< (8 * (3 - size)) else value >>> (8 * (size - 3))

/-- Only the leading bytes are kept. The size wraps around at 256 bytes. -/
def encode (value : Nat) : UInt32 :=
  if value = 0 then 0
  else
    let size := BigEndian.width value
    let word := leading size value
    if 0x800000 ≤ word then UInt32.ofNat ((size + 1) * 0x1000000 + word / 256)
    else UInt32.ofNat (size * 0x1000000 + word)

@[simp] theorem encode_zero : encode 0 = 0 := rfl

theorem decode_pos {bits : UInt32} {value : Nat} (h : decode bits = .ok value) : 0 < value := by
  simp only [decode] at h
  split at h
  · cases h
  · split at h
    · cases h
    · cases h; omega

end EndorsedChain.Compact
