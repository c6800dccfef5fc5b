import Mathlib.Data.List.DropRight
import Roar.Number.Decimal

/-!
# The shape of a number's text

The text of a finite number is a numeral: perhaps a minus sign, then a digit, then digits and the
bytes that a point or an exponent needs (`Number.text_numeral`). It is `0` for the two zeros and
for no other number (`Number.text_eq_zero_iff`): the decimal of any other number keeps a digit that
is not zero, because no more digits are rounded away than there are but one
(`pow10_digitCount_le`).
-/

namespace Roar

open Byte

/-! ## Digits -/

theorem toNat_byte {c : Char} (h : c.isDigit) : (byte c).toNat = c.toNat := by
  have hc : c.toNat ≤ 57 := (Char.isDigit_iff_toNat.mp h).2
  simp only [byte, Nat.toUInt8_eq, UInt8.toNat_ofNat']
  omega

private theorem isDigit_byte {c : Char} (h : c.isDigit) : isDigit (byte c) := by
  obtain ⟨hlow, hhigh⟩ := Char.isDigit_iff_toNat.mp h
  simp only [isDigit, Bool.and_eq_true, decide_eq_true_eq, UInt8.le_iff_toNat_le, toNat_byte h]
  exact ⟨hlow, hhigh⟩

theorem isDigit_of_mem_toDigits {n : Nat} : ∀ c ∈ Nat.toDigits 10 n, c.isDigit := fun _ hc =>
  Nat.isDigit_of_mem_toDigits (by omega) (by omega) hc

theorem isDigit_of_mem_decimal {n : Nat} : ∀ c ∈ decimal n, isDigit c := by
  intro c hc
  obtain ⟨d, hd, rfl⟩ := List.mem_map.mp hc
  exact isDigit_byte (isDigit_of_mem_toDigits d hd)

/-- The digits that a number is written with have its value. -/
theorem digitsValue_decimal (n : Nat) : Decimal.digitsValue (decimal n) = n := by
  have hstep (digits : List Char) (hdigits : ∀ c ∈ digits, c.isDigit) (value : Nat) :
      (digits.map byte).foldl (fun value c => 10 * value + (c - byte '0').toNat) value =
        Nat.ofDigitChars 10 digits value := by
    induction digits generalizing value with
    | nil => rfl
    | cons c digits ih =>
      rw [List.forall_mem_cons] at hdigits
      obtain ⟨hc, hdigits⟩ := hdigits
      have hlow : byte '0' ≤ byte c := by
        rw [UInt8.le_iff_toNat_le, toNat_byte hc]
        exact (Char.isDigit_iff_toNat.mp hc).1
      rw [List.map_cons, List.foldl_cons, ih hdigits, UInt8.toNat_sub_of_le _ _ hlow, toNat_byte hc]
      rfl
  rw [Decimal.digitsValue, decimal, hstep _ isDigit_of_mem_toDigits]
  exact Nat.ofDigitChars_toDigits (by omega) (by omega)

theorem digitsValue_replicate_zero (n : Nat) :
    Decimal.digitsValue (List.replicate n (byte '0')) = 0 := by
  induction n with
  | zero => rfl
  | succ n ih => exact ih

namespace Decimal

variable {d : Decimal}

theorem isDigit_of_mem_digits : ∀ c ∈ d.digits, isDigit c := fun c hc =>
  isDigit_of_mem_decimal c ((List.rdropWhile_prefix (· == byte '0') _).subset hc)

/-- Only a zero loses all its digits. -/
theorem digits_ne_nil (h : 0 < d.coefficient) : d.digits ≠ [] := by
  intro hnil
  have hzeros : ∀ c ∈ decimal d.coefficient, c = byte '0' := by
    simpa using List.rdropWhile_eq_nil_iff.mp hnil
  have hvalue := digitsValue_decimal d.coefficient
  rw [List.eq_replicate_of_mem hzeros, digitsValue_replicate_zero] at hvalue
  omega

theorem getLast_digits (h : d.digits ≠ []) : d.digits.getLast h ≠ byte '0' := by
  have hlast := List.rdropWhile_last_not (· == byte '0') (decimal d.coefficient) h
  exact fun hzero => hlast (beq_iff_eq.mpr hzero)

end Decimal

/-! ## How many digits there are -/

theorem le_digitCountFrom (n fuel k : Nat) : k ≤ digitCountFrom n fuel k := by
  induction fuel generalizing k with
  | zero => exact Nat.le_refl k
  | succ fuel ih =>
    unfold digitCountFrom
    split
    · exact Nat.le_refl k
    · have := ih (k + 1)
      omega

/-- A count that went past its start stopped at the first power above the number. -/
theorem pow10_digitCountFrom_le {n fuel k : Nat} (h : k < digitCountFrom n fuel k) :
    pow10 (digitCountFrom n fuel k - 1) ≤ n := by
  induction fuel generalizing k with
  | zero => exact absurd h (Nat.lt_irrefl k)
  | succ fuel ih =>
    unfold digitCountFrom at h ⊢
    split at h
    · exact absurd h (Nat.lt_irrefl k)
    · rename_i hle
      rw [if_neg hle]
      rcases Nat.lt_or_eq_of_le (le_digitCountFrom n fuel (k + 1)) with hlt | heq
      · exact ih hlt
      · rw [← heq]
        exact Nat.le_of_not_lt hle

/-- An estimate of one logarithm by another. -/
theorem pow_estimate_le {x y m k : Nat} (hx : 0 < x) (hk : k ≠ 0) (h : x.pow m ≤ y.pow k)
    (b : Nat) : x.pow (b * m / k) ≤ y.pow b := by
  refine (Nat.pow_le_pow_iff_left hk).mp ?_
  calc (x.pow (b * m / k)).pow k
      = x.pow (b * m / k * k) := (Nat.pow_mul ..).symm
    _ ≤ x.pow (m * b) := Nat.pow_le_pow_right hx (Nat.mul_comm m b ▸ Nat.div_mul_le_self ..)
    _ = (x.pow m).pow b := Nat.pow_mul ..
    _ ≤ (y.pow k).pow b := Nat.pow_le_pow_left h b
    _ = (y.pow b).pow k := Nat.pow_right_comm ..

/-- The start of the count is not too high. -/
theorem pow10_estimate_le (b : Nat) : pow10 (b * 1233 / 4096) ≤ pow2 b :=
  pow_estimate_le (by omega) (by omega) (by decide +kernel) b

/-- The first digit counts: a number is not below the power of ten one digit shorter. -/
theorem pow10_digitCount_le {n : Nat} (h : 0 < n) : pow10 (digitCount n - 1) ≤ n := by
  unfold digitCount
  rcases Nat.lt_or_eq_of_le (le_digitCountFrom n (n.log2 + 1) (n.log2 * 1233 / 4096 + 1)) with
    hlt | heq
  · exact pow10_digitCountFrom_le hlt
  · rw [← heq]
    exact Nat.le_trans (pow10_estimate_le n.log2) (Nat.log2_self_le (by omega))

private theorem roundDiv_pos {n d : Nat} (hd : 0 < d) (h : d ≤ n) : 0 < roundDiv n d := by
  have hq : 0 < n / d := Nat.div_pos h hd
  unfold roundDiv
  grind

private theorem roundDiv_digits_pos {n p : Nat} (hn : 0 < n) (hp : 0 < p) :
    0 < roundDiv n (pow10 (digitCount n - p)) := by
  have hdropped : digitCount n - p ≤ digitCount n - 1 := by omega
  exact roundDiv_pos (Nat.pow_pos (by omega))
    (Nat.le_trans (Nat.pow_le_pow_right (by omega) hdropped) (pow10_digitCount_le hn))

/-- Rounding to one digit or more leaves something of a number that is not zero. -/
theorem coefficient_nearest_pos {units p : Nat} (hunits : 0 < units) (hp : 0 < p) :
    0 < (Decimal.nearest units p).coefficient :=
  roundDiv_digits_pos (Nat.mul_pos hunits (by decide +kernel)) hp

theorem exists_shortestFrom_eq (units n p : Nat) :
    ∃ q, p ≤ q ∧ Number.shortestFrom units n p = Decimal.nearest units q := by
  induction n generalizing p with
  | zero => exact ⟨p, Nat.le_refl p, rfl⟩
  | succ n ih =>
    unfold Number.shortestFrom
    simp only
    split
    · exact ⟨p, Nat.le_refl p, rfl⟩
    · obtain ⟨q, hq, heq⟩ := ih (p + 1)
      exact ⟨q, by omega, heq⟩

theorem coefficient_shortest_pos {units : Nat} (hunits : 0 < units) :
    0 < (Number.shortest units).coefficient := by
  obtain ⟨q, hq, heq⟩ := exists_shortestFrom_eq units 16 1
  rw [Number.shortest, heq]
  exact coefficient_nearest_pos hunits hq

/-! ## Numerals -/

/-- A byte that a numeral is written with. -/
def isNumeralByte (c : UInt8) : Bool :=
  isDigit c || c == byte '.' || c == byte 'e' || c == byte '+' || c == byte '-'

/-- A numeral without a sign in front. -/
structure IsUnsigned (text : Bytes) : Prop where
  start : text.head?.any isDigit
  bytes : ∀ c ∈ text, isNumeralByte c

theorem IsUnsigned.exists_cons {text : Bytes} (h : IsUnsigned text) :
    ∃ c cs, text = c :: cs ∧ isDigit c := by
  cases text with
  | nil => exact absurd h.start Bool.false_ne_true
  | cons c cs => exact ⟨c, cs, rfl, h.start⟩

private theorem isNumeralByte_of_isDigit {c : UInt8} (h : isDigit c) : isNumeralByte c := by
  simp [isNumeralByte, h]

section Layout

variable {digits : Bytes} (hne : digits ≠ []) (hdigits : ∀ c ∈ digits, isDigit c) (n : Int)

include hne hdigits

theorem isUnsigned_layout : IsUnsigned (Decimal.layout digits n) := by
  obtain ⟨c, cs, rfl⟩ := List.exists_cons_of_ne_nil hne
  have hc : isDigit c := hdigits c List.mem_cons_self
  have hbytes : ∀ d ∈ c :: cs, isNumeralByte d := fun d hd =>
    isNumeralByte_of_isDigit (hdigits d hd)
  have hzero : isNumeralByte (byte '0') := rfl
  have hpoint : isNumeralByte (byte '.') := rfl
  unfold Decimal.layout
  simp only
  split
  · -- Zeros follow the digits.
    refine ⟨by simpa using hc, fun d hd => ?_⟩
    rcases List.mem_append.mp hd with hd | hd
    · exact hbytes d hd
    · exact (List.eq_of_mem_replicate hd) ▸ hzero
  split
  · -- The point stands among the digits.
    rename_i hn
    obtain ⟨k, hk⟩ : ∃ k, n.toNat = k + 1 := ⟨n.toNat - 1, by omega⟩
    rw [hk]
    refine ⟨by simpa using hc, fun d hd => ?_⟩
    simp only [List.mem_append] at hd
    rcases hd with (hd | hd) | hd
    · exact hbytes d (List.mem_of_mem_take hd)
    · exact (List.mem_singleton.mp hd) ▸ hpoint
    · exact hbytes d (List.mem_of_mem_drop hd)
  split
  · -- The number is below one.
    refine ⟨rfl, fun d hd => ?_⟩
    simp only [List.mem_append] at hd
    rcases hd with (hd | hd) | hd
    · rcases List.mem_pair.mp hd with rfl | rfl
      · exact hzero
      · exact hpoint
    · exact (List.eq_of_mem_replicate hd) ▸ hzero
    · exact hbytes d hd
  · refine ⟨by simpa using hc, fun d hd => ?_⟩
    simp only [List.mem_append] at hd
    rcases hd with (((hd | hd) | hd) | hd) | hd
    · exact hbytes d (List.mem_of_mem_take hd)
    · split at hd
      · rcases List.mem_append.mp hd with hd | hd
        · exact (List.mem_singleton.mp hd) ▸ hpoint
        · exact hbytes d (List.mem_of_mem_drop hd)
      · exact absurd hd List.not_mem_nil
    · rw [List.mem_singleton.mp hd]
      rfl
    · split at hd
      · rw [List.mem_singleton.mp hd]
        rfl
      · rw [List.mem_singleton.mp hd]
        rfl
    · exact isNumeralByte_of_isDigit (isDigit_of_mem_decimal d hd)

omit hdigits in
/-- Only the digit zero itself is laid out as `0`. -/
theorem layout_ne_zero (hlast : digits.getLast hne ≠ byte '0') :
    Decimal.layout digits n ≠ ascii "0" := by
  intro h
  unfold Decimal.layout at h
  simp only at h
  split at h
  · obtain ⟨c, cs, rfl⟩ := List.exists_cons_of_ne_nil hne
    obtain ⟨rfl, hrest⟩ := List.cons.inj h
    obtain ⟨rfl, -⟩ := List.append_eq_nil_iff.mp hrest
    exact hlast rfl
  -- The other layouts show a byte that is no digit.
  split at h
  · exact absurd (h ▸ by simp [ascii] : byte '.' ∈ ascii "0") (by decide)
  split at h
  · exact absurd (h ▸ by simp [ascii] : byte '.' ∈ ascii "0") (by decide)
  · exact absurd (h ▸ by simp [ascii] : byte 'e' ∈ ascii "0") (by decide)

end Layout

namespace Number

/-- The digits of a number without its sign. -/
def magnitude (units : Nat) : Bytes :=
  if units = 0 then ascii "0"
  else Decimal.layout (shortest units).digits (shortest units).pointPosition

theorem isUnsigned_magnitude (units : Nat) : IsUnsigned (magnitude units) := by
  unfold magnitude
  split
  · exact ⟨rfl, List.all_eq_true.mp rfl⟩
  · rename_i hunits
    exact isUnsigned_layout (Decimal.digits_ne_nil (coefficient_shortest_pos (by omega)))
      Decimal.isDigit_of_mem_digits _

theorem magnitude_eq_zero_iff (units : Nat) : magnitude units = ascii "0" ↔ units = 0 := by
  unfold magnitude
  split
  · rename_i hunits
    exact ⟨fun _ => hunits, fun _ => rfl⟩
  · rename_i hunits
    have hne := Decimal.digits_ne_nil (coefficient_shortest_pos (Nat.pos_of_ne_zero hunits))
    exact ⟨fun h => absurd h (layout_ne_zero hne _ (Decimal.getLast_digits hne)),
      fun h => absurd h hunits⟩

/-- The text of a finite number: its magnitude, behind a minus sign for a negative number. -/
theorem text_finite (negative : Bool) (units : Nat) (exact : Representable units) :
    (finite negative units exact).text =
      (if negative && units != 0 then ascii "-" else []) ++ magnitude units := by
  unfold magnitude
  by_cases hunits : units = 0
  · have hsign : (negative && units != 0) = false := by simp [hunits]
    rw [if_pos hunits, hsign]
    exact if_pos hunits
  · have hsign : (negative && units != 0) = negative := by simp [hunits]
    rw [if_neg hunits, hsign]
    exact if_neg hunits

/-- A number that is neither infinite nor a NaN. -/
def isFinite : Number → Bool
  | .finite .. => true
  | _ => false

/-- Numbers of units with signs are equal if the units are, and the signs as well unless there are no
units. -/
theorem signed_inj {s t : Bool} {m n : Nat} :
    signed s m = signed t n ↔ m = n ∧ (s = t ∨ m = 0) := by
  cases s <;> cases t <;> simp [signed] <;> omega

theorem isZero_finite (negative : Bool) (units : Nat) (exact : Representable units) :
    (finite negative units exact).isZero = (units == 0) := by
  have hrank : (signed negative units = signed false 0) ↔ units = 0 := by
    rw [signed_inj]
    exact ⟨And.left, fun h => ⟨h, .inr h⟩⟩
  exact decide_eq_decide.mpr hrank

/-- A finite number is written as a numeral, perhaps with a minus sign in front. -/
theorem text_numeral {x : Number} (h : x.isFinite) :
    ∃ t, IsUnsigned t ∧ (x.text = t ∨ x.text = byte '-' :: t) := by
  cases x with
  | nan | infinity => exact absurd h Bool.false_ne_true
  | finite negative units exact =>
    refine ⟨magnitude units, isUnsigned_magnitude units, ?_⟩
    rw [text_finite]
    split
    · exact .inr rfl
    · exact .inl rfl

theorem text_eq_zero_iff {x : Number} (h : x.isFinite) : x.text = ascii "0" ↔ x.isZero := by
  cases x with
  | nan | infinity => exact absurd h Bool.false_ne_true
  | finite negative units exact =>
    rw [text_finite, isZero_finite, beq_iff_eq, ← magnitude_eq_zero_iff]
    split
    · rename_i hsign
      have hunits : units ≠ 0 := by simp_all
      have hhead : ascii "-" ++ magnitude units ≠ ascii "0" := fun heq =>
        absurd (List.cons.inj heq).1 (by decide)
      exact ⟨fun heq => absurd heq hhead,
        fun heq => absurd ((magnitude_eq_zero_iff units).mp heq) hunits⟩
    · rfl

/-- The number with the sign of a zero forgotten. -/
def withoutZeroSign (x : Number) : Number := if x.isZero then zero false else x

/-- The text of a number tells all of it but the sign of a zero, if the numbers that are not zero
have different texts. -/
theorem withoutZeroSign_eq_of_text {x y : Number} (hx : x.isFinite) (hy : y.isFinite)
    (hinj : x.isZero = false → y.isZero = false → x.text = y.text → x = y)
    (h : x.text = y.text) : x.withoutZeroSign = y.withoutZeroSign := by
  have hzero : x.isZero = y.isZero := by
    rw [Bool.eq_iff_iff, ← text_eq_zero_iff hx, ← text_eq_zero_iff hy, h]
  unfold withoutZeroSign
  cases hx : x.isZero with
  | true => rw [← hzero, hx, if_pos rfl, if_pos rfl]
  | false =>
    rw [hx] at hzero
    rw [← hzero, hinj hx hzero.symm h]

end Number

end Roar
