import EndorsedChain.Bytes.BigEndian

/-!
# Reading packed values

A reader consumes the front of a byte string. It returns its value or an error, and in both cases
the bytes it left unread.
-/

namespace EndorsedChain

inductive ReadError where
  | notEnoughBytes (left demanded : Nat)
  | unconsumedData (left : Nat)
  | structureInvalid (reason : String)
  | unknownTag (tag : Nat)
deriving DecidableEq, Repr

def ReadError.message : ReadError → String
  | .notEnoughBytes left demanded =>
    s!"not enough bytes, {left} left but {demanded} demanded"
  | .unconsumedData left => s!"{left} bytes left unconsumed"
  | .structureInvalid reason => "invalid structure: " ++ reason
  | .unknownTag tag => s!"unknown tag {tag}"

def Reader (α : Type) : Type := List UInt8 → Except ReadError α × List UInt8

namespace Reader

variable {α β : Type}

protected def pure (a : α) : Reader α := fun bytes => (.ok a, bytes)

protected def bind (r : Reader α) (f : α → Reader β) : Reader β := fun bytes =>
  match r bytes with
  | (.ok a, rest) => f a rest
  | (.error e, rest) => (.error e, rest)

instance : Monad Reader where
  pure := Reader.pure
  bind := Reader.bind

@[simp] theorem pure_apply (a : α) (bytes : List UInt8) :
    (pure a : Reader α) bytes = (.ok a, bytes) := rfl

theorem bind_ok {r : Reader α} {f : α → Reader β} {a : α} {bytes rest : List UInt8}
    (h : r bytes = (.ok a, rest)) : (r >>= f) bytes = f a rest := by
  change Reader.bind r f bytes = _
  simp [Reader.bind, h]

theorem bind_error {r : Reader α} {f : α → Reader β} {e : ReadError} {bytes rest : List UInt8}
    (h : r bytes = (.error e, rest)) : (r >>= f) bytes = (.error e, rest) := by
  change Reader.bind r f bytes = _
  simp [Reader.bind, h]

/-- Leaves everything unread and fails. -/
def fail (e : ReadError) : Reader α := fun bytes => (.error e, bytes)

def ofExcept (result : Except ReadError α) : Reader α := fun bytes => (result, bytes)

/-- The next `n` bytes; with fewer left none is consumed. -/
def take (n : Nat) : Reader (List UInt8) := fun bytes =>
  if bytes.length < n then (.error (.notEnoughBytes bytes.length n), bytes)
  else (.ok (bytes.take n), bytes.drop n)

def u8 : Reader UInt8 := return UInt8.ofNat (BigEndian.decode (← take 1))

def u16 : Reader UInt16 := return UInt16.ofNat (BigEndian.decode (← take 2))

def u32 : Reader UInt32 := return UInt32.ofNat (BigEndian.decode (← take 4))

def u64 : Reader UInt64 := return UInt64.ofNat (BigEndian.decode (← take 8))

/-- Bytes behind a length of one byte, see `packSized?`. -/
def sized : Reader (List UInt8) := do
  let size ← u8
  take size.toNat

def expectEnd : Reader Unit := fun bytes =>
  if bytes.length = 0 then (.ok (), bytes) else (.error (.unconsumedData bytes.length), bytes)

/-- Reads a value out of a byte string and refuses any trailing byte. -/
def readAll (r : Reader α) (bytes : List UInt8) : Except ReadError α :=
  ((do let a ← r; expectEnd; return a) : Reader α) bytes |>.1

@[simp] theorem take_append (front rest : List UInt8) :
    take front.length (front ++ rest) = (.ok front, rest) := by
  simp [take]

end Reader

/-- A length of one byte followed by the bytes; longer strings have no such form. -/
def packSized? (bytes : List UInt8) : Option (List UInt8) :=
  if bytes.length ≤ 255 then some (UInt8.ofNat bytes.length :: bytes) else none

end EndorsedChain
