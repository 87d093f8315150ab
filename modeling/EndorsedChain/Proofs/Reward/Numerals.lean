import EndorsedChain.Proofs.Reward.Decimal
import Mathlib.Data.List.DropRight
import Mathlib.Tactic.LinearCombination

/-!
# Decimals as they are written

A numeral stands for an exact number, whatever its number of places.  Exactly the numerals are read
as decimals, and each of them as the largest decimal that is not above its number
(`parse_rounds_down`).  Reading cuts the digits off after the eighth place, which is rounding down
for a number without sign; a negative one is one unit lower if a digit that was cut off is not zero.

A decimal is written as a numeral of its own value, so that reading gives it back.
-/

namespace EndorsedChain.Decimal

/-! ## Digits -/

section Digits

variable {c : Char} {cs : List Char}

theorem toNat_of_isDigit (h : c.isDigit = true) : 48 ≤ c.toNat ∧ c.toNat ≤ 57 :=
  Char.isDigit_iff_toNat.mp h

theorem ofDigitChars_cons_zero (c : Char) (cs : List Char) :
    Nat.ofDigitChars 10 (c :: cs) 0 =
      10 ^ cs.length * (c.toNat - 48) + Nat.ofDigitChars 10 cs 0 := by
  rw [Nat.ofDigitChars_cons, Nat.ofDigitChars_eq_ofDigitChars_zero, mul_zero, zero_add]
  rfl

theorem ofDigitChars_lt (h : ∀ c ∈ cs, c.isDigit = true) :
    Nat.ofDigitChars 10 cs 0 < 10 ^ cs.length := by
  induction cs with
  | nil => exact Nat.one_pos
  | cons c cs ih =>
    rw [List.forall_mem_cons] at h
    have hrest := ih h.2
    have hdigit : c.toNat - 48 ≤ 9 := by
      have hc := toNat_of_isDigit h.1
      omega
    rw [ofDigitChars_cons_zero, List.length_cons]
    calc
      10 ^ cs.length * (c.toNat - 48) + Nat.ofDigitChars 10 cs 0
        < 10 ^ cs.length * 9 + 10 ^ cs.length :=
          Nat.add_lt_add_of_le_of_lt (Nat.mul_le_mul_left _ hdigit) hrest
      _ = 10 ^ (cs.length + 1) := by ring

theorem ofDigitChars_eq_zero_iff (h : ∀ c ∈ cs, c.isDigit = true) :
    Nat.ofDigitChars 10 cs 0 = 0 ↔ ∀ c ∈ cs, c = '0' := by
  induction cs with
  | nil => simp
  | cons c cs ih =>
    rw [List.forall_mem_cons] at h
    have hdigit : c.toNat - 48 = 0 ↔ c = '0' := by
      have hc := toNat_of_isDigit h.1
      rw [← Char.toNat_inj, show '0'.toNat = 48 from rfl]
      omega
    rw [ofDigitChars_cons_zero, List.forall_mem_cons, ← ih h.2, ← hdigit]
    simp

/-- The digits that are cut off make up for what the first eight places miss. -/
theorem unitsOfDigits_mul_add (integer fraction : List Char) :
    unitsOfDigits integer fraction * 10 ^ fraction.length +
        Nat.ofDigitChars 10 ((fraction ++ List.replicate 8 '0').drop 8) 0 =
      (Nat.ofDigitChars 10 integer 0 * 10 ^ fraction.length + Nat.ofDigitChars 10 fraction 0) *
        10 ^ 8 := by
  have hlength : ((fraction ++ List.replicate 8 '0').drop 8).length = fraction.length := by simp
  have hdigits : Nat.ofDigitChars 10 (integer ++ (fraction ++ List.replicate 8 '0')) 0 =
      unitsOfDigits integer fraction * 10 ^ fraction.length +
        Nat.ofDigitChars 10 ((fraction ++ List.replicate 8 '0').drop 8) 0 := by
    conv_lhs => rw [← List.take_append_drop 8 (fraction ++ List.replicate 8 '0'),
      ← List.append_assoc, Nat.ofDigitChars_append, Nat.ofDigitChars_eq_ofDigitChars_zero, hlength]
    rw [mul_comm]
    rfl
  rw [← hdigits, Nat.ofDigitChars_append, Nat.ofDigitChars_append, Nat.ofDigitChars_replicate_zero,
    Nat.ofDigitChars_eq_ofDigitChars_zero]
  ring

theorem isDigit_of_mem_drop {fraction : List Char} (h : ∀ c ∈ fraction, c.isDigit = true) :
    ∀ c ∈ (fraction ++ List.replicate 8 '0').drop 8, c.isDigit = true := by
  intro c hc
  rcases List.mem_append.mp (List.mem_of_mem_drop hc) with hc | hc
  · exact h c hc
  · rw [List.eq_of_mem_replicate hc]
    rfl

/-- Whether something was cut off. -/
theorem any_drop_iff {fraction : List Char} (h : ∀ c ∈ fraction, c.isDigit = true) :
    (fraction.drop 8).any (· ≠ '0') = true ↔
      Nat.ofDigitChars 10 ((fraction ++ List.replicate 8 '0').drop 8) 0 ≠ 0 := by
  rw [ne_eq, ofDigitChars_eq_zero_iff (isDigit_of_mem_drop h), List.drop_append,
    List.drop_replicate]
  simp only [List.mem_append, List.mem_replicate, List.any_eq_true, decide_eq_true_eq]
  grind

end Digits

/-- Digits with an optional point among them, after an optional sign.  There may be no digit before
the point, or none after it. -/
structure Numeral where
  negative : Bool
  integer : List Char
  /-- What stands after the point, if there is a point. -/
  fraction : Option (List Char)
  isDigit : ∀ c ∈ integer ++ fraction.getD [], c.isDigit = true
  ne_nil : integer ++ fraction.getD [] ≠ []

namespace Numeral

variable (n : Numeral)

def places : List Char := n.fraction.getD []

def unsigned : List Char :=
  n.integer ++ match n.fraction with
    | none => []
    | some places => '.' :: places

def chars : List Char := if n.negative then '-' :: n.unsigned else n.unsigned

def text : String := String.ofList n.chars

/-- The number without its sign. -/
def magnitude : ℚ :=
  Nat.ofDigitChars 10 n.integer 0 + Nat.ofDigitChars 10 n.places 0 / 10 ^ n.places.length

def value : ℚ := if n.negative then -n.magnitude else n.magnitude

/-- The units of the first eight places. -/
def units : ℕ := unitsOfDigits n.integer n.places

/-- The digits after the eighth place, as a number. -/
def rest : ℕ := Nat.ofDigitChars 10 ((n.places ++ List.replicate 8 '0').drop 8) 0

theorem isDigit_places : ∀ c ∈ n.places, c.isDigit = true :=
  fun c hc ↦ n.isDigit c (List.mem_append_right _ hc)

theorem isDigit_integer : ∀ c ∈ n.integer, c.isDigit = true :=
  fun c hc ↦ n.isDigit c (List.mem_append_left _ hc)

/-! ## Reading -/

theorem ne_point_of_mem_integer : ∀ c ∈ n.integer, decide (c ≠ '.') = true := by
  intro c hc
  have hdigit := n.isDigit_integer c hc
  rw [decide_eq_true_eq]
  rintro rfl
  exact absurd hdigit (by decide)

theorem takeWhile_unsigned : n.unsigned.takeWhile (· ≠ '.') = n.integer := by
  rw [unsigned, List.takeWhile_append_of_pos n.ne_point_of_mem_integer]
  cases n.fraction <;> simp

theorem drop_dropWhile_unsigned : (n.unsigned.dropWhile (· ≠ '.')).drop 1 = n.places := by
  rw [unsigned, List.dropWhile_append_of_pos n.ne_point_of_mem_integer, places]
  cases n.fraction <;> simp

theorem parseUnsigned?_unsigned (up : Bool) :
    parseUnsigned? up n.unsigned =
      some (if up = true ∧ n.rest ≠ 0 then n.units + 1 else n.units) := by
  have hne : ¬(n.integer.isEmpty && n.places.isEmpty) = true := by
    rw [Bool.and_eq_true, List.isEmpty_iff, List.isEmpty_iff, ← List.append_eq_nil_iff]
    exact n.ne_nil
  have hdigits : (n.integer.all Char.isDigit && n.places.all Char.isDigit) = true := by
    rw [Bool.and_eq_true, List.all_eq_true, List.all_eq_true]
    exact ⟨n.isDigit_integer, n.isDigit_places⟩
  simp only [parseUnsigned?, takeWhile_unsigned, drop_dropWhile_unsigned]
  rw [if_neg hne, if_pos hdigits]
  simp only [Bool.and_eq_true, any_drop_iff n.isDigit_places]
  rfl

/-- Putting the point back where the text was split. -/
theorem append_at_point (cs : List Char) :
    (cs.takeWhile (· ≠ '.') ++
      match (cs.dropWhile (· ≠ '.')).tail? with
      | none => []
      | some places => '.' :: places) = cs := by
  conv_rhs => rw [← List.takeWhile_append_dropWhile (p := (· ≠ '.')) (l := cs)]
  cases hrest : cs.dropWhile (· ≠ '.') with
  | nil => rfl
  | cons c places =>
    have hpoint : c = '.' := by
      have hhead := List.head?_dropWhile_not (· ≠ '.') cs
      rw [hrest] at hhead
      simpa using hhead
    rw [hpoint]
    rfl

/-- What reads without a sign is a numeral with either sign. -/
theorem exists_of_parseUnsigned? {up : Bool} {cs : List Char} {k : ℕ}
    (h : parseUnsigned? up cs = some k) (negative : Bool) :
    ∃ n : Numeral, n.negative = negative ∧ n.unsigned = cs := by
  have hplaces : (cs.dropWhile (· ≠ '.')).tail?.getD [] = (cs.dropWhile (· ≠ '.')).drop 1 := by
    cases cs.dropWhile (· ≠ '.') <;> rfl
  simp only [parseUnsigned?] at h
  split at h
  case isTrue => cases h
  case isFalse hne =>
    split at h
    case isFalse => cases h
    case isTrue hdigits =>
      rw [Bool.and_eq_true, List.isEmpty_iff, List.isEmpty_iff, ← List.append_eq_nil_iff,
        ← hplaces] at hne
      rw [Bool.and_eq_true, List.all_eq_true, List.all_eq_true, ← List.forall_mem_append,
        ← hplaces] at hdigits
      exact ⟨⟨negative, cs.takeWhile (· ≠ '.'), (cs.dropWhile (· ≠ '.')).tail?, hdigits, hne⟩,
        rfl, append_at_point cs⟩

theorem minus_notMem_unsigned : '-' ∉ n.unsigned := by
  intro hmem
  have hne : ∀ c : Char, c.isDigit = true → '-' ≠ c := by
    rintro c hc rfl
    exact absurd hc (by decide)
  rw [unsigned, List.mem_append] at hmem
  rcases hmem with hmem | hmem
  · exact hne _ (n.isDigit_integer _ hmem) rfl
  · have hplaces := n.isDigit_places
    rw [places] at hplaces
    cases hfraction : n.fraction with
    | none => simp [hfraction] at hmem
    | some ds =>
      rw [hfraction] at hmem hplaces
      rcases List.mem_cons.mp hmem with hmem | hmem
      · exact absurd hmem (by decide)
      · exact hne _ (hplaces _ hmem) rfl

theorem parseChars?_minus (cs : List Char) :
    parseChars? ('-' :: cs) = (parseUnsigned? true cs).map fun k : ℕ ↦ ⟨-(k : ℤ)⟩ := by
  rw [parseChars?]
  cases parseUnsigned? true cs <;> rfl

theorem parseChars?_of_ne {cs : List Char} (h : ∀ ds, cs ≠ '-' :: ds) :
    parseChars? cs = (parseUnsigned? false cs).map fun k : ℕ ↦ ⟨(k : ℤ)⟩ := by
  unfold parseChars?
  split
  · exact absurd rfl (h _)
  · cases parseUnsigned? false cs <;> rfl

/-- The decimal as which a numeral is read. -/
def reading : Decimal :=
  ⟨if n.negative then -((if n.rest ≠ 0 then n.units + 1 else n.units : ℕ) : ℤ) else n.units⟩

theorem parse_text : parse n.text = .ok n.reading := by
  have hchars : parseChars? n.chars = some n.reading := by
    rw [chars, reading]
    split
    · rw [parseChars?_minus, parseUnsigned?_unsigned]
      simp
    · have hne : ∀ ds, n.unsigned ≠ '-' :: ds :=
        fun ds h ↦ n.minus_notMem_unsigned (h ▸ List.mem_cons_self)
      rw [parseChars?_of_ne hne, parseUnsigned?_unsigned]
      simp
  rw [parse, text, String.toList_ofList, hchars]

theorem exists_of_parseChars? {cs : List Char} {a : Decimal} (h : parseChars? cs = some a) :
    ∃ n : Numeral, n.chars = cs := by
  by_cases hminus : ∃ ds, cs = '-' :: ds
  · obtain ⟨ds, rfl⟩ := hminus
    rw [parseChars?_minus, Option.map_eq_some_iff] at h
    obtain ⟨k, hk, -⟩ := h
    obtain ⟨n, hnegative, rfl⟩ := exists_of_parseUnsigned? hk true
    exact ⟨n, by rw [chars, if_pos hnegative]⟩
  · rw [parseChars?_of_ne (not_exists.mp hminus), Option.map_eq_some_iff] at h
    obtain ⟨k, hk, -⟩ := h
    obtain ⟨n, hnegative, rfl⟩ := exists_of_parseUnsigned? hk false
    exact ⟨n, by rw [chars, hnegative, if_neg Bool.false_ne_true]⟩

/-- What reads is a numeral. -/
theorem exists_of_parse {text : String} {a : Decimal} (h : parse text = .ok a) :
    ∃ n : Numeral, n.text = text := by
  obtain ⟨n, hn⟩ : ∃ n : Numeral, n.chars = text.toList := by
    rw [parse] at h
    split at h
    case h_1 hchars => exact exists_of_parseChars? hchars
    case h_2 => cases h
  exact ⟨n, by rw [Numeral.text, hn, String.ofList_toList]⟩

/-! ## The number that is read -/

theorem magnitude_mul_scale :
    n.magnitude * scale = n.units + n.rest / 10 ^ n.places.length := by
  have hunits : ((n.units * 10 ^ n.places.length + n.rest : ℕ) : ℚ) =
      ((Nat.ofDigitChars 10 n.integer 0 * 10 ^ n.places.length +
        Nat.ofDigitChars 10 n.places 0) * 10 ^ 8 : ℕ) :=
    congrArg _ (unitsOfDigits_mul_add n.integer n.places)
  push_cast at hunits
  rw [magnitude, scale_eq_pow]
  field_simp
  linear_combination -hunits

theorem rest_lt : n.rest < 10 ^ n.places.length := by
  have hlength : ((n.places ++ List.replicate 8 '0').drop 8).length = n.places.length := by simp
  rw [← hlength]
  exact ofDigitChars_lt (isDigit_of_mem_drop n.isDigit_places)

theorem rest_div_mem : (n.rest : ℚ) / 10 ^ n.places.length ∈ Set.Ico 0 1 := by
  have hrest : (n.rest : ℚ) < 10 ^ n.places.length := by exact_mod_cast n.rest_lt
  exact ⟨by positivity, (div_lt_one (by positivity)).mpr hrest⟩

theorem floor_magnitude : ⌊n.magnitude * scale⌋ = n.units := by
  rw [magnitude_mul_scale, Int.floor_natCast_add, Int.floor_eq_zero_iff.mpr n.rest_div_mem,
    add_zero]

/-- Below zero, what is cut off takes one unit more. -/
theorem floor_neg_magnitude :
    ⌊-n.magnitude * scale⌋ = -((if n.rest ≠ 0 then n.units + 1 else n.units : ℕ) : ℤ) := by
  rw [neg_mul, Int.floor_neg, magnitude_mul_scale, Int.ceil_natCast_add]
  split
  case isTrue hrest =>
    have hpos : (0 : ℚ) < n.rest / 10 ^ n.places.length := by positivity
    have hceil : ⌈(n.rest : ℚ) / 10 ^ n.places.length⌉ = 1 :=
      Int.ceil_eq_iff.mpr ⟨by simpa using hpos, by simpa using n.rest_div_mem.2.le⟩
    rw [hceil, Nat.cast_succ]
  case isFalse hrest =>
    rw [not_not.mp hrest, Nat.cast_zero, zero_div, Int.ceil_zero, add_zero]

theorem reading_roundsDown : n.reading.RoundsDown n.value := by
  refine roundsDown_of_floor ?_
  rw [reading, value]
  split
  · rw [floor_neg_magnitude]
  · rw [floor_magnitude]

end Numeral

/-! ## Writing -/

theorem exists_append_zeros (cs : List Char) :
    ∃ k, cs.rdropWhile (· = '0') ++ List.replicate k '0' = cs := by
  have hzeros : cs.rtakeWhile (· = '0') =
      List.replicate (cs.rtakeWhile (· = '0')).length '0' :=
    List.eq_replicate_of_mem fun c hc ↦ by simpa using List.mem_rtakeWhile_imp hc
  exact ⟨_, hzeros ▸ List.rdropWhile_append_rtakeWhile⟩

/-- With the zeros that are left off at the end, there are eight places. -/
theorem exists_fractionDigits {f : ℕ} (hf : f < 10 ^ 8) :
    ∃ k, (fractionDigits f).length + k = 8 ∧
      10 ^ k * Nat.ofDigitChars 10 (fractionDigits f) 0 = f := by
  have hlength : (Nat.toDigits 10 f).length ≤ 8 :=
    (Nat.length_toDigits_le_iff (by omega) (by omega)).mpr hf
  obtain ⟨k, hk⟩ : ∃ k, fractionDigits f ++ List.replicate k '0' =
      List.replicate (8 - (Nat.toDigits 10 f).length) '0' ++ Nat.toDigits 10 f :=
    exists_append_zeros _
  refine ⟨k, ?_, ?_⟩
  · have hsum := congrArg List.length hk
    simp only [List.length_append, List.length_replicate] at hsum
    omega
  · rw [← Nat.ofDigitChars_replicate_zero, ← Nat.ofDigitChars_append, hk,
      Nat.ofDigitChars_append, Nat.ofDigitChars_replicate_zero, mul_zero,
      Nat.ofDigitChars_ten_toDigits]

/-- The places of a fraction are worth its units. -/
theorem value_fractionDigits {f : ℕ} (hf : f < 10 ^ 8) :
    (Nat.ofDigitChars 10 (fractionDigits f) 0 : ℚ) / 10 ^ (fractionDigits f).length =
      f / 10 ^ 8 := by
  obtain ⟨k, hlength, hvalue⟩ := exists_fractionDigits hf
  have hvalue' : (10 : ℚ) ^ k * Nat.ofDigitChars 10 (fractionDigits f) 0 = f := by
    exact_mod_cast hvalue
  rw [← hlength, ← hvalue', pow_add]
  field_simp

theorem isDigit_of_mem_fractionDigits (f : ℕ) : ∀ c ∈ fractionDigits f, c.isDigit = true := by
  intro c hc
  have hpadded := (List.rdropWhile_prefix (· = '0') _).subset hc
  rcases List.mem_append.mp hpadded with hc | hc
  · rw [List.eq_of_mem_replicate hc]
    rfl
  · exact Nat.isDigit_of_mem_toDigits (by omega) (by omega) hc

/-- How a decimal is written. -/
def written (a : Decimal) : Numeral where
  negative := a.isNegative
  integer := Nat.toDigits 10 (a.units.natAbs / scale.toNat)
  fraction :=
    if a.units.natAbs % scale.toNat = 0 then none
    else some (fractionDigits (a.units.natAbs % scale.toNat))
  isDigit := by
    rw [List.forall_mem_append]
    refine ⟨fun c hc ↦ Nat.isDigit_of_mem_toDigits (by omega) (by omega) hc, ?_⟩
    split
    · simp
    · exact isDigit_of_mem_fractionDigits _
  ne_nil := fun h ↦ Nat.toDigits_ne_nil (List.append_eq_nil_iff.mp h).1

theorem text_written (a : Decimal) : a.written.text = toString a := by
  have hunsigned : a.written.unsigned =
      Nat.toDigits 10 (a.units.natAbs / scale.toNat) ++
        if a.units.natAbs % scale.toNat = 0 then []
        else '.' :: fractionDigits (a.units.natAbs % scale.toNat) := by
    rw [Numeral.unsigned, written]
    split <;> rfl
  have hchars : a.written.chars = a.render := by
    rw [Numeral.chars, hunsigned]
    simp only [written, isNegative, decide_eq_true_eq]
    rfl
  rw [Numeral.text, hchars]
  rfl

theorem places_written (a : Decimal) :
    a.written.places =
      if a.units.natAbs % 10 ^ 8 = 0 then [] else fractionDigits (a.units.natAbs % 10 ^ 8) :=
  apply_ite (fun fraction : Option (List Char) ↦ fraction.getD []) _ _ _

theorem magnitude_written (a : Decimal) : a.written.magnitude = a.units.natAbs / scale := by
  have hplaces : (Nat.ofDigitChars 10 a.written.places 0 : ℚ) / 10 ^ a.written.places.length =
      (a.units.natAbs % 10 ^ 8 : ℕ) / 10 ^ 8 := by
    rw [places_written]
    split
    case isTrue hzero => rw [hzero, Nat.ofDigitChars_nil, Nat.cast_zero, zero_div, zero_div]
    case isFalse => exact value_fractionDigits (Nat.mod_lt _ (by norm_num))
  have hinteger : Nat.ofDigitChars 10 a.written.integer 0 = a.units.natAbs / 10 ^ 8 :=
    Nat.ofDigitChars_ten_toDigits
  have hdivmod : (10 ^ 8 * (a.units.natAbs / 10 ^ 8 : ℕ) + (a.units.natAbs % 10 ^ 8 : ℕ) : ℚ) =
      a.units.natAbs := by
    exact_mod_cast Nat.div_add_mod a.units.natAbs (10 ^ 8)
  rw [Numeral.magnitude, hplaces, hinteger, scale_eq_pow, ← hdivmod]
  field_simp

theorem value_written (a : Decimal) : a.written.value = a.toRat := by
  rw [Numeral.value, magnitude_written, toRat]
  split
  case isTrue hnegative =>
    have hneg : a.units ≤ 0 := (of_decide_eq_true hnegative).le
    rw [← neg_div, Nat.cast_natAbs, abs_of_nonpos hneg, Int.cast_neg, neg_neg]
  case isFalse hnegative =>
    have hnonneg : 0 ≤ a.units :=
      isNegative_eq_false_iff.mp (Bool.eq_false_of_not_eq_true hnegative)
    rw [Nat.cast_natAbs, abs_of_nonneg hnonneg]

theorem parse_toString (a : Decimal) : parse (toString a) = .ok a := by
  have hreading : a.written.reading.RoundsDown a.toRat :=
    value_written a ▸ a.written.reading_roundsDown
  rw [← text_written, Numeral.parse_text, hreading.eq]

/-- Exactly the numerals read, each as its value rounded down, and a decimal reads as itself. -/
theorem parse_rounds_down :
    (∀ text, (∃ a, parse text = .ok a) ↔ ∃ n : Numeral, n.text = text) ∧
      (∀ n : Numeral, ∃ a, parse n.text = .ok a ∧ a.RoundsDown n.value) ∧
      ∀ a : Decimal, parse (toString a) = .ok a := by
  refine ⟨fun text ↦ ⟨?_, ?_⟩, fun n ↦ ⟨n.reading, n.parse_text, n.reading_roundsDown⟩,
    parse_toString⟩
  · rintro ⟨a, ha⟩
    exact Numeral.exists_of_parse ha
  · rintro ⟨n, rfl⟩
    exact ⟨n.reading, n.parse_text⟩

-- No digit before the point, and none of the first eight places is more than zero.
example : parse "-.000000001" = .ok ⟨-1⟩ := by rfl

end EndorsedChain.Decimal
