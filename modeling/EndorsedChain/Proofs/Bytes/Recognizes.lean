import EndorsedChain.Proofs.Bytes.Reads

/-!
# What a reader accepts

A reader *recognizes* the forms of values if it reads each form back whatever follows, and accepts
nothing else.  No form is then the beginning of another one, of the same value or of a different one
(`Recognizes.eq_of_prefix`), so a form that is cut short or continued is refused.

The only numbers with several forms are those behind a length, which may have leading zeros.
-/

namespace EndorsedChain

namespace BigEndian

variable {bytes : List UInt8}

/-- Whether no shorter byte string denotes the same number. -/
def IsMinimal (bytes : List UInt8) : Prop :=
  bytes ≠ [] ∧ (bytes.head? = some 0 → bytes = [0])

instance (bytes : List UInt8) : Decidable (IsMinimal bytes) := inferInstanceAs (Decidable (_ ∧ _))

theorem foldl_decode (bytes : List UInt8) (acc : Nat) :
    bytes.foldl (fun n b ↦ n * 256 + b.toNat) acc =
      acc * 256 ^ bytes.length + decode bytes := by
  induction bytes generalizing acc with
  | nil => simp
  | cons b bytes ih =>
    rw [decode, List.foldl_cons, List.foldl_cons, ih, ih (0 * 256 + b.toNat), List.length_cons]
    ring

theorem decode_cons (b : UInt8) (bytes : List UInt8) :
    decode (b :: bytes) = b.toNat * 256 ^ bytes.length + decode bytes := by
  rw [decode, List.foldl_cons, foldl_decode, Nat.zero_mul, Nat.zero_add]

theorem decode_lt (bytes : List UInt8) : decode bytes < 256 ^ bytes.length := by
  have hlt : decode bytes < 1 * 256 ^ bytes.length := foldl_decode_lt (by decide)
  rwa [Nat.one_mul] at hlt

/-- Digits do not depend on those far above them. -/
theorem digit_mul_pow_add {width v : Nat} (hlt : width < v) (a n : Nat) :
    (a * 256 ^ v + n) / 256 ^ width % 256 = n / 256 ^ width % 256 := by
  have hpow : 256 ^ v = 256 ^ width * (256 * 256 ^ (v - width - 1)) := by
    rw [← Nat.pow_succ', ← Nat.pow_add]
    congr 1
    omega
  rw [hpow, Nat.mul_left_comm, Nat.mul_add_div (Nat.pow_pos (by decide)), Nat.mul_left_comm,
    Nat.mul_add_mod]

/-- Encoding does not look at the bytes above its width. -/
theorem encode_mul_pow_add {width v : Nat} (hle : width ≤ v) (a n : Nat) :
    encode width (a * 256 ^ v + n) = encode width n := by
  induction width with
  | zero => rfl
  | succ width ih =>
    have hbyte : UInt8.ofNat ((a * 256 ^ v + n) >>> (8 * width)) =
        UInt8.ofNat (n >>> (8 * width)) := by
      rw [← UInt8.toNat_inj, UInt8.toNat_ofNat', UInt8.toNat_ofNat', Nat.shiftRight_eq_div_pow,
        Nat.shiftRight_eq_div_pow, Nat.pow_mul]
      exact digit_mul_pow_add hle a n
    rw [encode, encode, hbyte, ih (by omega)]

/-- Bytes are what their number is encoded to in as many bytes. -/
@[simp] theorem encode_decode (bytes : List UInt8) :
    encode bytes.length (decode bytes) = bytes := by
  induction bytes with
  | nil => rfl
  | cons b bytes ih =>
    have hhead : UInt8.ofNat (decode (b :: bytes) >>> (8 * bytes.length)) = b := by
      have hquotient : decode (b :: bytes) / 256 ^ bytes.length = b.toNat := by
        rw [decode_cons, Nat.mul_comm, Nat.mul_add_div (Nat.pow_pos (by decide)),
          Nat.div_eq_of_lt (decode_lt bytes), Nat.add_zero]
      rw [Nat.shiftRight_eq_div_pow, Nat.pow_mul, hquotient, UInt8.ofNat_toNat]
    rw [List.length_cons, encode, hhead, decode_cons, encode_mul_pow_add le_rfl, ih]

/-- A leading byte that is not zero is needed. -/
theorem width_decode_cons {b : UInt8} (hb : b ≠ 0) (bytes : List UInt8) :
    width (decode (b :: bytes)) = bytes.length + 1 := by
  have hle := width_decode_le (b :: bytes)
  have hpos : 0 < b.toNat := Nat.pos_of_ne_zero fun h ↦ hb (UInt8.toNat_inj.mp h)
  have hlt : 256 ^ bytes.length < 256 ^ width (decode (b :: bytes)) := by
    calc
      256 ^ bytes.length ≤ b.toNat * 256 ^ bytes.length := Nat.le_mul_of_pos_left _ hpos
      _ ≤ decode (b :: bytes) := decode_cons b bytes ▸ Nat.le_add_right ..
      _ < 256 ^ width (decode (b :: bytes)) := lt_pow_width _
  have hwidth := (Nat.pow_lt_pow_iff_right (by decide)).mp hlt
  rw [List.length_cons] at hle
  omega

theorem minimal_decode_eq_iff : minimal (decode bytes) = bytes ↔ IsMinimal bytes := by
  constructor
  · intro hminimal
    have hlength : width (decode bytes) = bytes.length := by
      rw [← length_minimal, hminimal]
    have hpos := width_pos (decode bytes)
    refine ⟨List.ne_nil_of_length_pos (by omega), fun hzero ↦ ?_⟩
    obtain ⟨rest, rfl⟩ := List.head?_eq_some_iff.mp hzero
    -- the number is that of the other bytes, which would suffice
    have hle := width_decode_le rest
    rw [decode_cons, UInt8.toNat_zero, Nat.zero_mul, Nat.zero_add, List.length_cons] at hlength
    rw [List.eq_nil_of_length_eq_zero (show rest.length = 0 by omega)]
  · rintro ⟨hne, hzero⟩
    obtain ⟨b, rest, rfl⟩ := List.exists_cons_of_ne_nil hne
    by_cases hb : b = 0
    · rw [hzero (by rw [hb]; rfl)]
      decide
    · rw [minimal, width_decode_cons hb]
      exact encode_decode (b :: rest)

end BigEndian

namespace Reader

variable {α β : Type} {r : Reader α} {form : α → List UInt8 → Prop} {a b : α}
  {bytes bytes' front rest : List UInt8}

/-- Reads the forms of values and nothing else. -/
structure Recognizes (r : Reader α) (form : α → List UInt8 → Prop) : Prop where
  reads : ∀ {a bytes}, form a bytes → r.Reads bytes a
  accepts : ∀ {a bytes rest}, r bytes = (.ok a, rest) →
    ∃ front, form a front ∧ bytes = front ++ rest

/-- Succeeds on every byte string that is long enough, with a value that has a property, and
consumes as many bytes in each case. -/
def Takes (r : Reader α) (size : Nat) (P : α → Prop) : Prop :=
  ∀ bytes, size ≤ bytes.length → ∃ a, P a ∧ r bytes = (.ok a, bytes.drop size)

theorem readAll_eq_ok_iff : r.readAll bytes = .ok a ↔ r bytes = (.ok a, []) := by
  constructor
  · intro h
    obtain ⟨b, rest, hread, hend⟩ := bind_eq_ok (Prod.ext h rfl)
    obtain ⟨_, rest', hrest, hpure⟩ := bind_eq_ok hend
    cases hpure
    unfold expectEnd at hrest
    split at hrest
    · rename_i hzero
      cases hrest
      rwa [List.eq_nil_of_length_eq_zero hzero] at hread
    · cases hrest
  · intro h
    unfold readAll
    rw [bind_ok h]
    rfl

theorem ofExcept_eq_ok {result : Except ReadError α}
    (h : ofExcept result bytes = (.ok a, rest)) : result = .ok a ∧ bytes = rest :=
  Prod.mk.inj h

theorem take_eq_ok {n : Nat} (h : take n bytes = (.ok front, rest)) :
    front.length = n ∧ bytes = front ++ rest := by
  refine ⟨length_of_take h, ?_⟩
  unfold take at h
  split at h
  · cases h
  · cases h
    exact (List.take_append_drop n bytes).symm

/-! ## Forms -/

namespace Recognizes

variable (h : r.Recognizes form)
include h

theorem readAll_eq_ok_iff : r.readAll bytes = .ok a ↔ form a bytes := by
  constructor
  · intro hread
    obtain ⟨front, hform, rfl⟩ := h.accepts (Reader.readAll_eq_ok_iff.mp hread)
    rwa [List.append_nil]
  · exact fun hform ↦ (h.reads hform).readAll

/-- No form goes on where another one ends. -/
theorem eq_of_prefix (ha : form a bytes) (hb : form b bytes') (hfront : bytes <+: bytes') :
    bytes = bytes' ∧ a = b := by
  obtain ⟨rest, rfl⟩ := hfront
  have hshort := h.reads ha rest
  have hlong := h.reads hb []
  rw [List.append_nil, hshort] at hlong
  obtain ⟨hvalue, hrest⟩ := Prod.mk.inj hlong
  rw [hrest, List.append_nil]
  exact ⟨rfl, Except.ok.inj hvalue⟩

/-- A form denotes one value. -/
theorem eq_of_form (ha : form a bytes) (hb : form b bytes) : a = b :=
  (h.eq_of_prefix ha hb (List.prefix_refl bytes)).2

/-- What is cut short is refused. -/
theorem readAll_of_prefix (ha : form a bytes) (hfront : front <+: bytes) (hne : front ≠ bytes) :
    ∃ e, r.readAll front = .error e := by
  cases hread : r.readAll front with
  | error e => exact ⟨e, rfl⟩
  | ok b => exact absurd (h.eq_of_prefix (h.readAll_eq_ok_iff.mp hread) ha hfront).1 hne

/-- What goes on is refused. -/
theorem readAll_append (ha : form a bytes) (hne : rest ≠ []) :
    r.readAll (bytes ++ rest) = .error (.unconsumedData rest.length) := by
  have hlength : rest.length ≠ 0 := by simpa using hne
  have hend : expectEnd rest = (.error (.unconsumedData rest.length), rest) := if_neg hlength
  unfold readAll
  rw [bind_ok (h.reads ha rest), bind_error hend]

end Recognizes

/-! ## Numbers and sized byte strings -/

/-- Bytes that were taken, as a number. -/
theorem encode_of_take {width : Nat} (h : take width bytes = (.ok front, rest)) :
    BigEndian.decode front < 256 ^ width ∧
      bytes = BigEndian.encode width (BigEndian.decode front) ++ rest := by
  obtain ⟨rfl, rfl⟩ := take_eq_ok h
  exact ⟨BigEndian.decode_lt front, by rw [BigEndian.encode_decode]⟩

theorem recognizes_u8 : u8.Recognizes fun n bytes ↦ bytes = BigEndian.u8 n where
  reads := by
    rintro n _ rfl
    exact reads_u8 n
  accepts h := by
    obtain ⟨front, _, htake, hpure⟩ := bind_eq_ok h
    cases hpure
    obtain ⟨hlength, rfl⟩ := take_eq_ok htake
    obtain ⟨b, rfl⟩ := List.length_eq_one_iff.mp hlength
    exact ⟨_, rfl, by simp [BigEndian.u8, BigEndian.decode]⟩

theorem recognizes_u16 : u16.Recognizes fun n bytes ↦ bytes = BigEndian.u16 n where
  reads := by
    rintro n _ rfl
    exact reads_u16 n
  accepts h := by
    obtain ⟨front, _, htake, hpure⟩ := bind_eq_ok h
    cases hpure
    obtain ⟨hlt, hbytes⟩ := encode_of_take htake
    exact ⟨_, rfl, by rwa [BigEndian.u16, UInt16.toNat_ofNat_of_lt' hlt]⟩

theorem recognizes_u32 : u32.Recognizes fun n bytes ↦ bytes = BigEndian.u32 n where
  reads := by
    rintro n _ rfl
    exact reads_u32 n
  accepts h := by
    obtain ⟨front, _, htake, hpure⟩ := bind_eq_ok h
    cases hpure
    obtain ⟨hlt, hbytes⟩ := encode_of_take htake
    exact ⟨_, rfl, by rwa [BigEndian.u32, UInt32.toNat_ofNat_of_lt' hlt]⟩

theorem recognizes_u64 : u64.Recognizes fun n bytes ↦ bytes = BigEndian.u64 n where
  reads := by
    rintro n _ rfl
    have h := (reads_take_of_length (BigEndian.length_u64 n)).bind_nil
      (f := fun bytes ↦ Pure.pure (UInt64.ofNat (BigEndian.decode bytes))) (Reads.pure _)
    have hlt : n.toNat < 256 ^ 8 := n.toNat_lt
    rwa [BigEndian.u64, BigEndian.decode_encode, Nat.mod_eq_of_lt hlt, UInt64.ofNat_toNat] at h
  accepts h := by
    obtain ⟨front, _, htake, hpure⟩ := bind_eq_ok h
    cases hpure
    obtain ⟨hlt, hbytes⟩ := encode_of_take htake
    exact ⟨_, rfl, by rwa [BigEndian.u64, UInt64.toNat_ofNat_of_lt' hlt]⟩

theorem recognizes_sized : sized.Recognizes fun bytes packed ↦ packSized? bytes = some packed where
  reads := reads_sized
  accepts h := by
    obtain ⟨size, _, hsize, htake⟩ := bind_eq_ok h
    obtain ⟨_, rfl, rfl⟩ := recognizes_u8.accepts hsize
    obtain ⟨hlength, rfl⟩ := take_eq_ok htake
    have hlt := size.toNat_lt
    refine ⟨_, by rw [packSized?, if_pos (by omega)], ?_⟩
    rw [hlength, UInt8.ofNat_toNat]
    rfl

/-! ## Readers of a fixed size -/

section Takes

variable {P : α → Prop} {Q : β → Prop} {m n : Nat}

theorem Takes.bind {f : α → Reader β} (hr : r.Takes m P) (hf : ∀ a, P a → (f a).Takes n Q) :
    (r >>= f).Takes (m + n) Q := by
  intro bytes hle
  obtain ⟨a, ha, hread⟩ := hr bytes (by omega)
  obtain ⟨b, hb, hrest⟩ := hf a ha (bytes.drop m) (by rw [List.length_drop]; omega)
  exact ⟨b, hb, by rw [bind_ok hread, hrest, List.drop_drop]⟩

theorem Takes.ofExcept {result : Except ReadError α} (h : result = .ok a) (ha : P a) :
    (Reader.ofExcept result).Takes 0 P := fun _ _ ↦ ⟨a, ha, by rw [Reader.ofExcept, h]; rfl⟩

theorem Takes.pure (ha : P a) : (Pure.pure a : Reader α).Takes 0 P := fun _ _ ↦ ⟨a, ha, rfl⟩

theorem takes_take (n : Nat) : (take n).Takes n (·.length = n) := fun bytes hle ↦
  ⟨bytes.take n, List.length_take_of_le hle, if_neg (Nat.not_lt.mpr hle)⟩

theorem takes_u16 : u16.Takes 2 fun _ ↦ True :=
  (takes_take 2).bind fun _ _ ↦ Takes.pure trivial

theorem takes_u32 : u32.Takes 4 fun _ ↦ True :=
  (takes_take 4).bind fun _ _ ↦ Takes.pure trivial

/-- Together with the size of its forms, a reader of a fixed size accepts what has that size. -/
theorem Takes.exists_readAll_iff (ht : r.Takes n P) (h : r.Recognizes form)
    (hlength : ∀ {a bytes}, form a bytes → bytes.length = n) :
    (∃ a, r.readAll bytes = .ok a) ↔ bytes.length = n := by
  constructor
  · rintro ⟨a, hread⟩
    exact hlength (h.readAll_eq_ok_iff.mp hread)
  · rintro rfl
    obtain ⟨a, -, hread⟩ := ht bytes le_rfl
    rw [List.drop_length] at hread
    exact ⟨a, readAll_eq_ok_iff.mpr hread⟩

end Takes

end Reader

end EndorsedChain
