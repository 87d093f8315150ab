import EndorsedChain.Bytes.BigEndian

/-! # BLAKE2b without a key -/

namespace EndorsedChain.Blake2b

def initial : Vector UInt64 8 := #v[
  0x6a09e667f3bcc908, 0xbb67ae8584caa73b, 0x3c6ef372fe94f82b, 0xa54ff53a5f1d36f1,
  0x510e527fade682d1, 0x9b05688c2b3e6c1f, 0x1f83d9abfb41bd6b, 0x5be0cd19137e2179]

/-- The order in which each round takes the message words. -/
def schedule : List (Vector (Fin 16) 16) :=
  let s₀ := #v[0, 1, 2, 3, 4, 5, 6, 7, 8, 9, 10, 11, 12, 13, 14, 15]
  let s₁ := #v[14, 10, 4, 8, 9, 15, 13, 6, 1, 12, 0, 2, 11, 7, 5, 3]
  [s₀, s₁,
   #v[11, 8, 12, 0, 5, 2, 15, 13, 10, 14, 3, 6, 7, 1, 9, 4],
   #v[7, 9, 3, 1, 13, 12, 11, 14, 2, 6, 5, 10, 4, 0, 15, 8],
   #v[9, 0, 5, 7, 2, 4, 10, 15, 14, 1, 11, 12, 6, 8, 3, 13],
   #v[2, 12, 6, 10, 0, 11, 8, 3, 4, 13, 7, 5, 15, 14, 1, 9],
   #v[12, 5, 1, 15, 14, 13, 4, 10, 0, 7, 6, 3, 9, 2, 8, 11],
   #v[13, 11, 7, 14, 12, 1, 3, 9, 5, 0, 15, 4, 8, 6, 2, 10],
   #v[6, 15, 14, 9, 11, 3, 0, 8, 12, 2, 13, 7, 1, 4, 10, 5],
   #v[10, 2, 8, 4, 7, 6, 1, 5, 15, 11, 9, 14, 3, 12, 13, 0],
   s₀, s₁]

def rotr (x : UInt64) (n : UInt64) : UInt64 := (x >>> n) ||| (x <<< (64 - n))

/-- Mixes two message words into a column or a diagonal of the working vector. -/
def mix (v : Vector UInt64 16) (i j k l : Fin 16) (x y : UInt64) : Vector UInt64 16 :=
  let a := v[i] + v[j] + x
  let d := rotr (v[l] ^^^ a) 32
  let c := v[k] + d
  let b := rotr (v[j] ^^^ c) 24
  let a := a + b + y
  let d := rotr (d ^^^ a) 16
  let c := c + d
  let b := rotr (b ^^^ c) 63
  (((v.set i a).set j b).set k c).set l d

def round (m : Vector UInt64 16) (v : Vector UInt64 16) (s : Vector (Fin 16) 16) :
    Vector UInt64 16 :=
  let v := mix v 0 4 8 12 m[s[0]] m[s[1]]
  let v := mix v 1 5 9 13 m[s[2]] m[s[3]]
  let v := mix v 2 6 10 14 m[s[4]] m[s[5]]
  let v := mix v 3 7 11 15 m[s[6]] m[s[7]]
  let v := mix v 0 5 10 15 m[s[8]] m[s[9]]
  let v := mix v 1 6 11 12 m[s[10]] m[s[11]]
  let v := mix v 2 7 8 13 m[s[12]] m[s[13]]
  mix v 3 4 9 14 m[s[14]] m[s[15]]

/-- Eight bytes as a word, least significant byte first. -/
def wordAt (bytes : List UInt8) (i : Nat) : UInt64 :=
  ((bytes.drop (8 * i)).take 8).foldr (fun b w => w <<< 8 ||| b.toUInt64) 0

def wordBytes (w : UInt64) : List UInt8 :=
  (List.range 8).map fun i => (w >>> UInt64.ofNat (8 * i)).toUInt8

/-- One block of at most 128 bytes, `count` being the bytes hashed up to its end. -/
def compress (h : Vector UInt64 8) (block : List UInt8) (count : Nat) (last : Bool) :
    Vector UInt64 8 :=
  let m : Vector UInt64 16 := .ofFn fun i => wordAt block i
  let low := UInt64.ofNat count
  let high := UInt64.ofNat (count / UInt64.size)
  let final : UInt64 := if last then 0xffffffffffffffff else 0
  let v := h ++ #v[initial[0], initial[1], initial[2], initial[3],
    initial[4] ^^^ low, initial[5] ^^^ high, initial[6] ^^^ final, initial[7]]
  let v := schedule.foldl (round m) v
  .ofFn fun i => h[i] ^^^ v[i.val] ^^^ v[i.val + 8]

/-- Absorbs `blocks` full blocks and then what is left as the last one. -/
def absorb : Nat → Nat → List UInt8 → Vector UInt64 8 → Vector UInt64 8
  | 0, count, bytes, h => compress h bytes (count + bytes.length) true
  | blocks + 1, count, bytes, h =>
    absorb blocks (count + 128) (bytes.drop 128) (compress h (bytes.take 128) (count + 128) false)

/-- The first `size` bytes of the final state, which starts with the size mixed in. -/
def digest (size : Nat) (message : List UInt8) : List UInt8 :=
  let h := initial.set 0 (initial[0] ^^^ 0x01010000 ^^^ UInt64.ofNat size)
  ((absorb ((message.length - 1) / 128) 0 message h).toList.flatMap wordBytes).take size

@[simp] theorem length_digest {size : Nat} (hsize : size ≤ 64) (message : List UInt8) :
    (digest size message).length = size := by
  simp [digest, List.length_flatMap, wordBytes, List.map_const']
  omega

end EndorsedChain.Blake2b
