/-! # Numbers as byte strings, most significant byte first -/

namespace EndorsedChain.BigEndian

/-- The low `width` bytes of a number. -/
def encode : Nat → Nat → List UInt8
  | 0, _ => []
  | width + 1, n => UInt8.ofNat (n >>> (8 * width)) :: encode width n

def decode (bytes : List UInt8) : Nat :=
  bytes.foldl (fun n b => n * 256 + b.toNat) 0

/-- How many bytes a number needs, at least one. -/
def width (n : Nat) : Nat := n.log2 / 8 + 1

/-- A number without leading zero bytes; zero is the single byte 0. -/
def minimal (n : Nat) : List UInt8 := encode (width n) n

def u8 (n : UInt8) : List UInt8 := [n]

def u16 (n : UInt16) : List UInt8 := encode 2 n.toNat

def u32 (n : UInt32) : List UInt8 := encode 4 n.toNat

def u64 (n : UInt64) : List UInt8 := encode 8 n.toNat

@[simp] theorem encode_zero (n : Nat) : encode 0 n = [] := rfl

@[simp] theorem length_encode (w n : Nat) : (encode w n).length = w := by
  induction w with
  | zero => rfl
  | succ w ih => simp [encode, ih]

@[simp] theorem length_minimal (n : Nat) : (minimal n).length = width n := length_encode ..

@[simp] theorem length_u16 (n : UInt16) : (u16 n).length = 2 := length_encode ..

@[simp] theorem length_u32 (n : UInt32) : (u32 n).length = 4 := length_encode ..

@[simp] theorem length_u64 (n : UInt64) : (u64 n).length = 8 := length_encode ..

@[simp] theorem decode_nil : decode [] = 0 := rfl

theorem width_pos (n : Nat) : 0 < width n := Nat.succ_pos _

end EndorsedChain.BigEndian
