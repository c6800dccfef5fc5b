import Mathlib.Data.List.Induction
import Roar.Proofs.Bytes
import Roar.Proofs.Number.Rounding
import Roar.Proofs.Number.Text

/-!
# Reading numerals

`Numeral.read?` reads a text as JavaScript does: perhaps a minus sign, then a decimal literal with
digits, perhaps a point and digits, perhaps an exponent. Leading zeros are refused.

Whatever the layout of significant digits, it is a literal with a whole part, perhaps digits behind a
point, and perhaps an exponent (`Decimal.exists_spelling`). It is read back with the value of the digits
(`Decimal.unsigned?_layout`), so that the text of a finite number is read as the decimal whose digits
it shows (`Numeral.read?_text`).
-/

namespace Roar

open Byte

/-! ## Values of digits -/

namespace Decimal

private theorem foldl_digits (digits : Bytes) (value : ℕ) :
    digits.foldl (fun value c => 10 * value + (c - byte '0').toNat) value =
      value * pow10 digits.length + digitsValue digits := by
  induction digits generalizing value with
  | nil => exact (Nat.mul_one value).symm
  | cons c digits ih =>
    have hvalue : digitsValue (c :: digits) =
        (c - byte '0').toNat * pow10 digits.length + digitsValue digits := by
      rw [digitsValue, List.foldl_cons, ih]
      ring
    rw [List.foldl_cons, ih, hvalue, List.length_cons,
      show pow10 (digits.length + 1) = pow10 digits.length * 10 from Nat.pow_succ ..]
    ring

theorem digitsValue_append (front back : Bytes) :
    digitsValue (front ++ back) = digitsValue front * pow10 back.length + digitsValue back := by
  rw [digitsValue, List.foldl_append]
  exact foldl_digits back _

theorem digitsValue_cons (c : UInt8) (cs : Bytes) :
    digitsValue (c :: cs) = (c - byte '0').toNat * pow10 cs.length + digitsValue cs := by
  have hone : digitsValue [c] = (c - byte '0').toNat := Nat.zero_add _
  rw [← List.singleton_append, digitsValue_append, hone]

theorem digitsValue_pos {digits : Bytes} {c : UInt8} (hc : c ∈ digits) (hzero : c ≠ byte '0') :
    0 < digitsValue digits := by
  obtain ⟨front, back, rfl⟩ := List.append_of_mem hc
  have hdigit : 0 < (c - byte '0').toNat := by
    refine Nat.pos_of_ne_zero fun h => hzero ?_
    have hsub : c - byte '0' = 0 := UInt8.toNat_inj.mp h
    rw [← UInt8.sub_add_cancel c (byte '0'), hsub, UInt8.zero_add]
  have hplace := Nat.mul_pos hdigit (pow10_pos back.length)
  rw [digitsValue_append, digitsValue_cons]
  omega

theorem digitsValue_pos_of_head {digits : Bytes} (hne : digits ≠ [])
    (hhead : digits.head? ≠ some (byte '0')) : 0 < digitsValue digits := by
  obtain ⟨c, cs, rfl⟩ := List.exists_cons_of_ne_nil hne
  exact digitsValue_pos List.mem_cons_self fun hzero => hhead (congrArg some hzero)

/-- Zeros behind the digits are worth as much as a greater exponent. -/
theorem value_mul_pow10 (c z : ℕ) (e : ℤ) : (mk (c * pow10 z) (e - z)).value = (mk c e).value := by
  rw [value, value, zpow_sub₀ (by norm_num), zpow_natCast]
  push_cast [cast_pow10]
  field_simp

end Decimal

theorem decimal_append {n d : ℕ} (hn : 0 < n) (hd : d < 10) :
    decimal (10 * n + d) = decimal n ++ decimal d := by
  unfold decimal
  rw [← Nat.toDigits_append_toDigits (by decide) hn hd, List.map_append]

theorem toNat_sub_zero_lt {c : UInt8} (h : isDigit c) : (c - byte '0').toNat < 10 := by
  simp only [isDigit, Bool.and_eq_true, decide_eq_true_eq, UInt8.le_iff_toNat_le] at h
  have hsub := UInt8.toNat_sub_of_le c (byte '0') (UInt8.le_iff_toNat_le.mpr h.1)
  have hnine : (byte '9').toNat = 57 := rfl
  have hzero : (byte '0').toNat = 48 := rfl
  omega

private theorem decimal_digit {c : UInt8} (h : isDigit c) : decimal (c - byte '0').toNat = [c] := by
  have hall : ∀ d < 10, decimal d = [byte '0' + UInt8.ofNat d] := by decide
  rw [hall _ (toNat_sub_zero_lt h), UInt8.ofNat_toNat, UInt8.add_comm, UInt8.sub_add_cancel]

/-- Digits without a leading zero are those of their value. -/
theorem decimal_digitsValue {digits : Bytes} (hne : digits ≠ []) (hdigits : ∀ c ∈ digits, isDigit c)
    (hhead : digits.head? ≠ some (byte '0')) : decimal (Decimal.digitsValue digits) = digits := by
  induction digits using List.reverseRecOn with
  | nil => exact absurd rfl hne
  | append_singleton front c ih =>
    obtain ⟨hfront, hc⟩ := List.forall_mem_append.mp hdigits
    have hc : isDigit c := hc c List.mem_cons_self
    have hvalue : Decimal.digitsValue [c] = (c - byte '0').toNat := Nat.zero_add _
    by_cases hnil : front = []
    · rw [hnil, List.nil_append, hvalue, decimal_digit hc]
    · rw [List.head?_append_of_ne_nil _ hnil] at hhead
      have hfront := ih hnil hfront hhead
      have hpos := Decimal.digitsValue_pos_of_head hnil hhead
      have hlt : (c - byte '0').toNat < 10 := by
        have hlength := congrArg List.length (decimal_digit hc)
        simp only [decimal, List.length_map, List.length_singleton] at hlength
        exact (Nat.length_toDigits_le_iff (by decide) Nat.one_pos).mp hlength.le
      rw [Decimal.digitsValue_append, hvalue, List.length_singleton,
        show Decimal.digitsValue front * pow10 1 = 10 * Decimal.digitsValue front from
          Nat.mul_comm _ _,
        decimal_append hpos hlt, hfront, decimal_digit hc]

theorem decimal_mul_pow10 {n : ℕ} (hn : 0 < n) (z : ℕ) :
    decimal (n * pow10 z) = decimal n ++ List.replicate z (byte '0') := by
  induction z with
  | zero =>
    rw [show n * pow10 0 = n from Nat.mul_one n]
    exact (List.append_nil _).symm
  | succ z ih =>
    have hpos : 0 < n * pow10 z := Nat.mul_pos hn (pow10_pos z)
    have hsucc : n * pow10 (z + 1) = 10 * (n * pow10 z) + 0 := by
      rw [show pow10 (z + 1) = pow10 z * 10 from Nat.pow_succ ..]
      ring
    rw [hsucc, decimal_append hpos (by decide), ih, List.append_assoc, List.replicate_succ']
    rfl

theorem decimal_ne_nil (n : ℕ) : decimal n ≠ [] := by simp [decimal]

/-- The first digit of a number that is not zero is not zero. -/
theorem head?_decimal {n : ℕ} (hn : 0 < n) : (decimal n).head? ≠ some (byte '0') := by
  induction n using Nat.strongRecOn with
  | ind n ih =>
    by_cases hsmall : n < 10
    · have hall : ∀ d < 10, 0 < d → (decimal d).head? ≠ some (byte '0') := by decide
      exact hall n hsmall hn
    · have hpos : 0 < n / 10 := by omega
      rw [← Nat.div_add_mod n 10, decimal_append hpos (Nat.mod_lt n (by decide)),
        List.head?_append_of_ne_nil _ (decimal_ne_nil _)]
      exact ih (n / 10) (by omega) hpos

/-! ## Decimal literals -/

namespace Numeral

/-- The value of one digit or more. -/
def digits? (text : Bytes) : Option ℕ :=
  if text ≠ [] ∧ text.all isDigit then some (Decimal.digitsValue text) else none

/-- The exponent of a literal: nothing, or `e`, perhaps a sign, and digits. -/
def exponent? : Bytes → Option ℤ
  | [] => some 0
  | [_] => none
  | c :: s :: ds =>
    if c = byte 'e' ∨ c = byte 'E' then
      if s = byte '-' then (digits? ds).map fun n : ℕ => -(n : ℤ)
      else (digits? (if s = byte '+' then ds else s :: ds)).map fun n : ℕ => (n : ℤ)
    else none

/-- The digits behind a point, and what stands behind them. -/
def fraction : Bytes → Bytes × Bytes
  | [] => ([], [])
  | c :: cs => if c = byte '.' then (cs.takeWhile isDigit, cs.dropWhile isDigit) else ([], c :: cs)

/-- The decimal of the parts of a literal. There is a digit, and a zero in front of the point has no
other digit before it or behind it. -/
def assemble (whole fraction exponent : Bytes) : Option Decimal :=
  if (whole ≠ [] ∨ fraction ≠ []) ∧ (whole.head? = some (byte '0') → whole.length = 1) then
    (exponent? exponent).map fun e =>
      ⟨Decimal.digitsValue (whole ++ fraction), e - fraction.length⟩
  else none

/-- Read a decimal literal. -/
def unsigned? (text : Bytes) : Option Decimal :=
  let rest := fraction (text.dropWhile isDigit)
  assemble (text.takeWhile isDigit) rest.1 rest.2

/-- Read a decimal literal, perhaps behind a minus sign. -/
def read? (text : Bytes) : Option (Bool × Decimal) :=
  if text.head? = some (byte '-') then (unsigned? text.tail).map fun d => (true, d)
  else (unsigned? text).map fun d => (false, d)

/-- The rational that a decimal with a sign stands for. -/
def value (numeral : Bool × Decimal) : ℚ :=
  if numeral.1 then -numeral.2.value else numeral.2.value

/-! ## The parts of a literal -/

/-- What may stand in front of the point: digits, of which the first is not a zero but alone. -/
structure IsWhole (text : Bytes) : Prop where
  nonempty : text ≠ []
  digits : ∀ c ∈ text, isDigit c
  zero : text.head? = some (byte '0') → text.length = 1

/-- What stands behind the digits is the exponent `e`. -/
structure IsExponent (text : Bytes) (e : ℤ) : Prop where
  apart : text.head?.any (fun c => isDigit c || c == byte '.') = false
  value : exponent? text = some e

theorem isExponent_nil : IsExponent [] 0 := ⟨rfl, rfl⟩

private theorem digits?_decimal (n : ℕ) : digits? (decimal n) = some n := by
  rw [digits?, if_pos ⟨decimal_ne_nil n, List.all_eq_true.mpr isDigit_of_mem_decimal⟩,
    digitsValue_decimal]

theorem isExponent_written (e : ℤ) :
    IsExponent (ascii "e" ++ (if 0 ≤ e then ascii "+" else ascii "-") ++ decimal e.natAbs) e := by
  refine ⟨rfl, ?_⟩
  split
  · rename_i he
    rw [show ascii "e" ++ ascii "+" ++ decimal e.natAbs =
      byte 'e' :: byte '+' :: decimal e.natAbs from rfl, exponent?, if_pos (.inl rfl),
      if_neg (by decide), if_pos rfl, digits?_decimal, Option.map_some, Int.natAbs_of_nonneg he]
  · rename_i he
    rw [show ascii "e" ++ ascii "-" ++ decimal e.natAbs =
      byte 'e' :: byte '-' :: decimal e.natAbs from rfl, exponent?, if_pos (.inl rfl), if_pos rfl,
      digits?_decimal, Option.map_some, Int.ofNat_natAbs_of_nonpos (by omega), neg_neg]

section Parts

variable {whole digits text : Bytes} {e : ℤ}

theorem IsExponent.head (h : IsExponent text e) :
    text.head?.any isDigit = false ∧ text.head? ≠ some (byte '.') := by
  have happart := h.apart
  cases text with
  | nil => exact ⟨rfl, by simp⟩
  | cons c cs => simpa using happart

theorem assemble_eq (hwhole : IsWhole whole) (he : IsExponent text e) :
    assemble whole digits text =
      some ⟨Decimal.digitsValue (whole ++ digits), e - digits.length⟩ := by
  rw [assemble, if_pos ⟨.inl hwhole.nonempty, hwhole.zero⟩, he.value]
  rfl

/-- A literal without a point. -/
theorem unsigned?_plain (hwhole : IsWhole whole) (he : IsExponent text e) :
    unsigned? (whole ++ text) = some ⟨Decimal.digitsValue whole, e⟩ := by
  obtain ⟨hdigit, hpoint⟩ := he.head
  obtain ⟨htake, hdrop⟩ := Bytes.span_append hwhole.digits hdigit
  have hfraction : fraction text = ([], text) := by
    cases text with
    | nil => rfl
    | cons c cs => exact if_neg (by simpa using hpoint)
  simp only [unsigned?, htake, hdrop, hfraction]
  rw [assemble_eq hwhole he, List.append_nil]
  exact congrArg (fun k => some (Decimal.mk _ k)) (sub_zero e)

/-- A literal with a point. -/
theorem unsigned?_point (hwhole : IsWhole whole) (hdigits : ∀ c ∈ digits, isDigit c)
    (he : IsExponent text e) :
    unsigned? (whole ++ byte '.' :: (digits ++ text)) =
      some ⟨Decimal.digitsValue (whole ++ digits), e - digits.length⟩ := by
  have hpoint : (byte '.' :: (digits ++ text)).head?.any isDigit = false := rfl
  obtain ⟨htake, hdrop⟩ := Bytes.span_append hwhole.digits hpoint
  obtain ⟨htake', hdrop'⟩ := Bytes.span_append hdigits he.head.1
  have hfraction : fraction (byte '.' :: (digits ++ text)) = (digits, text) := by
    rw [fraction, if_pos rfl, htake', hdrop']
  simp only [unsigned?, htake, hdrop, hfraction]
  exact assemble_eq hwhole he

end Parts

/-! ## Literals in parts -/

/-- The digits behind the point, with the point if there are any. -/
def pointed (fraction : Bytes) : Bytes := if fraction = [] then [] else byte '.' :: fraction

/-- The power of ten, which is not shown if it is one. -/
def scale (e : ℤ) : Bytes :=
  if e = 0 then []
  else ascii "e" ++ (if 0 ≤ e then ascii "+" else ascii "-") ++ decimal e.natAbs

/-- A literal that is not zero, in its parts. The digits behind the point do not end with a zero. -/
structure Spelling where
  whole : Bytes
  fraction : Bytes
  exponent : ℤ
  isWhole : IsWhole whole
  isFraction : ∀ c ∈ fraction, isDigit c
  last : fraction.getLast? ≠ some (byte '0')
  pos : 0 < Decimal.digitsValue (whole ++ fraction)

/-- The literal as it is written. -/
def Spelling.text (l : Spelling) : Bytes := l.whole ++ (pointed l.fraction ++ scale l.exponent)

theorem isExponent_scale (e : ℤ) : IsExponent (scale e) e := by
  unfold scale
  split
  · rename_i he
    rw [he]
    exact isExponent_nil
  · exact isExponent_written e

theorem unsigned?_parts {whole fraction : Bytes} (hwhole : IsWhole whole)
    (hfraction : ∀ c ∈ fraction, isDigit c) (e : ℤ) :
    unsigned? (whole ++ (pointed fraction ++ scale e)) =
      some ⟨Decimal.digitsValue (whole ++ fraction), e - fraction.length⟩ := by
  by_cases hnil : fraction = []
  · rw [hnil, pointed, if_pos rfl, List.nil_append, List.append_nil, List.length_nil, Nat.cast_zero,
      sub_zero]
    exact unsigned?_plain hwhole (isExponent_scale e)
  · rw [pointed, if_neg hnil]
    exact unsigned?_point hwhole hfraction (isExponent_scale e)

namespace Spelling

variable (l : Spelling)

/-- What the literal stands for. -/
def toDecimal : Decimal :=
  ⟨Decimal.digitsValue (l.whole ++ l.fraction), l.exponent - l.fraction.length⟩

theorem unsigned?_text : unsigned? l.text = some l.toDecimal :=
  unsigned?_parts l.isWhole l.isFraction l.exponent

end Spelling

theorem isWhole_cons {c : UInt8} {more : Bytes} (hc : isDigit c) (hzero : c ≠ byte '0')
    (hmore : ∀ d ∈ more, isDigit d) : IsWhole (c :: more) :=
  ⟨List.cons_ne_nil c more, List.forall_mem_cons.mpr ⟨hc, hmore⟩,
    fun h => absurd (Option.some.inj h) hzero⟩

theorem isDigit_of_mem_zeros (z : ℕ) : ∀ d ∈ List.replicate z (byte '0'), isDigit d := by
  intro d hd
  rw [List.eq_of_mem_replicate hd]
  rfl

end Numeral

/-! ## Layouts -/

namespace Decimal

open Numeral

/-- Digits of which all count: there is one, and neither the first nor the last is a zero. -/
structure IsSignificant (digits : Bytes) : Prop where
  nonempty : digits ≠ []
  isDigit : ∀ c ∈ digits, isDigit c
  first : digits.head? ≠ some (byte '0')
  last : digits.getLast? ≠ some (byte '0')

namespace IsSignificant

variable {c : UInt8} {cs : Bytes} (h : IsSignificant (c :: cs))

include h

theorem head_ne_zero : c ≠ byte '0' := fun hzero => h.first (congrArg some hzero)

theorem isDigit_tail : ∀ d ∈ cs, Byte.isDigit d := (List.forall_mem_cons.mp h.isDigit).2

theorem isWhole_append {more : Bytes} (hmore : ∀ d ∈ more, Byte.isDigit d) : IsWhole (c :: more) :=
  isWhole_cons (h.isDigit c List.mem_cons_self) h.head_ne_zero hmore

theorem digitsValue_digits_pos : 0 < digitsValue (c :: cs) :=
  digitsValue_pos List.mem_cons_self h.head_ne_zero

theorem getLast?_drop (k : ℕ) : ((c :: cs).drop k).getLast? ≠ some (byte '0') := by
  rw [List.getLast?_drop]
  split
  · exact (Option.some_ne_none _).symm
  · exact h.last

/-- Zeros behind the digits. -/
theorem exists_spelling_zeros (z : ℕ) :
    ∃ l : Spelling, l.text = c :: cs ++ List.replicate z (byte '0') ∧ l.fraction = [] ∧
      l.exponent = 0 ∧ l.toDecimal = ⟨digitsValue (c :: cs) * pow10 z, 0⟩ := by
  have hmore : ∀ d ∈ cs ++ List.replicate z (byte '0'), Byte.isDigit d :=
    List.forall_mem_append.mpr ⟨h.isDigit_tail, isDigit_of_mem_zeros z⟩
  have hvalue : digitsValue (c :: cs ++ List.replicate z (byte '0') ++ []) =
      digitsValue (c :: cs) * pow10 z := by
    rw [List.append_nil, digitsValue_append, digitsValue_replicate_zero, List.length_replicate,
      Nat.add_zero]
  have hpos := Nat.mul_pos h.digitsValue_digits_pos (pow10_pos z)
  exact ⟨⟨_, [], 0, h.isWhole_append hmore, List.forall_mem_nil _, by decide, hvalue ▸ hpos⟩,
    List.append_nil _, rfl, rfl, congrArg₂ Decimal.mk hvalue rfl⟩

/-- A point among the digits. -/
theorem exists_spelling_among {k : ℕ} (hk : k < cs.length) :
    ∃ l : Spelling, l.text = (c :: cs).take (k + 1) ++ ascii "." ++ (c :: cs).drop (k + 1) ∧
      l.fraction ≠ [] ∧ l.exponent = 0 ∧
      l.toDecimal = ⟨digitsValue (c :: cs), -(cs.length - k : ℕ)⟩ := by
  have hfront : ∀ d ∈ cs.take k, Byte.isDigit d := fun d hd =>
    h.isDigit_tail d (List.mem_of_mem_take hd)
  have hback : ∀ d ∈ cs.drop k, Byte.isDigit d := fun d hd =>
    h.isDigit_tail d (List.mem_of_mem_drop hd)
  have hne : cs.drop k ≠ [] := by
    rw [ne_eq, List.drop_eq_nil_iff]
    omega
  have hvalue : digitsValue (c :: cs.take k ++ cs.drop k) = digitsValue (c :: cs) := by
    rw [List.cons_append, List.take_append_drop]
  have hplaces : (0 : ℤ) - (cs.drop k).length = -(cs.length - k : ℕ) := by
    rw [List.length_drop, zero_sub]
  refine ⟨⟨_, _, 0, h.isWhole_append hfront, hback, h.getLast?_drop (k + 1),
    hvalue ▸ h.digitsValue_digits_pos⟩, ?_, hne, rfl, congrArg₂ Decimal.mk hvalue hplaces⟩
  rw [Spelling.text, pointed, if_neg hne, List.take_succ_cons, List.drop_succ_cons, List.append_assoc]
  exact congrArg (fun more => _ ++ byte '.' :: more) (List.append_nil _)

/-- A point in front of zeros and the digits. -/
theorem exists_spelling_front (z : ℕ) :
    ∃ l : Spelling, l.text = ascii "0." ++ List.replicate z (byte '0') ++ c :: cs ∧
      l.fraction ≠ [] ∧ l.exponent = 0 ∧
      l.toDecimal = ⟨digitsValue (c :: cs), -(z + (c :: cs).length : ℕ)⟩ := by
  have hwhole : IsWhole (ascii "0") := ⟨by decide, List.forall_mem_singleton.mpr rfl, fun _ => rfl⟩
  have hdigits : ∀ d ∈ List.replicate z (byte '0') ++ c :: cs, Byte.isDigit d :=
    List.forall_mem_append.mpr ⟨isDigit_of_mem_zeros z, h.isDigit⟩
  have hne : List.replicate z (byte '0') ++ c :: cs ≠ [] :=
    List.append_ne_nil_of_right_ne_nil _ (List.cons_ne_nil c cs)
  have hlast : (List.replicate z (byte '0') ++ c :: cs).getLast? ≠ some (byte '0') := by
    rw [List.getLast?_append_of_ne_nil _ (List.cons_ne_nil c cs)]
    exact h.last
  have hvalue : digitsValue (ascii "0" ++ (List.replicate z (byte '0') ++ c :: cs)) =
      digitsValue (c :: cs) := by
    rw [digitsValue_append, digitsValue_append, digitsValue_replicate_zero,
      show digitsValue (ascii "0") = 0 from rfl, Nat.zero_mul, Nat.zero_mul, Nat.zero_add,
      Nat.zero_add]
  have hplaces : (0 : ℤ) - (List.replicate z (byte '0') ++ c :: cs).length =
      -(z + (c :: cs).length : ℕ) := by
    rw [List.length_append, List.length_replicate, zero_sub]
  refine ⟨⟨_, _, 0, hwhole, hdigits, hlast, hvalue ▸ h.digitsValue_digits_pos⟩, ?_, hne, rfl,
    congrArg₂ Decimal.mk hvalue hplaces⟩
  rw [Spelling.text, pointed, if_neg hne, List.append_assoc]
  exact congrArg (fun more => ascii "0." ++ more) (List.append_nil _)

/-- A point behind the first of several digits, and an exponent. -/
theorem exists_spelling_scientific {e : ℤ} (he : e ≠ 0) :
    ∃ l : Spelling, l.text = (c :: cs).take 1 ++
        (if 1 < ((c :: cs).length : ℤ) then ascii "." ++ (c :: cs).drop 1 else []) ++ ascii "e" ++
        (if 0 ≤ e then ascii "+" else ascii "-") ++ decimal e.natAbs ∧
      l.exponent = e ∧ l.toDecimal = ⟨digitsValue (c :: cs), e - cs.length⟩ := by
  refine ⟨⟨[c], cs, e, h.isWhole_append (List.forall_mem_nil _), h.isDigit_tail, h.getLast?_drop 1,
    h.digitsValue_digits_pos⟩, ?_, rfl, rfl⟩
  have hpointed : pointed cs =
      if 1 < ((c :: cs).length : ℤ) then ascii "." ++ (c :: cs).drop 1 else [] := by
    cases cs with
    | nil => rfl
    | cons d ds =>
      rw [if_pos (by simp)]
      rfl
  rw [Spelling.text, hpointed, scale, if_neg he]
  simp only [List.append_assoc]
  rfl

end IsSignificant

/-- Whatever the layout, it is a literal: with an exponent where the point is out of range, and with
neither a point nor an exponent where the point is behind the digits and in range. The literal stands
for `0.d₁…dₖ · 10 ^ n`, with `z` zeros behind the digits. -/
theorem exists_spelling {digits : Bytes} (h : IsSignificant digits) (n : ℤ) :
    ∃ l : Spelling, l.text = layout digits n ∧ (l.exponent ≠ 0 ↔ 21 < n ∨ n ≤ -6) ∧
      (l.fraction = [] ∧ l.exponent = 0 ↔ digits.length ≤ n ∧ n ≤ 21) ∧
      ∃ z : ℕ, l.toDecimal = ⟨digitsValue digits * pow10 z, n - digits.length - z⟩ := by
  obtain ⟨c, cs, rfl⟩ := List.exists_cons_of_ne_nil h.nonempty
  have hlength : (c :: cs).length = cs.length + 1 := List.length_cons
  -- only zeros that are written behind the digits change their value
  have hplain {d : Decimal} {e : ℤ} (hd : d = ⟨digitsValue (c :: cs), e⟩)
      (he : e = n - (c :: cs).length) :
      ∃ z : ℕ, d = ⟨digitsValue (c :: cs) * pow10 z, n - (c :: cs).length - z⟩ := by
    refine ⟨0, hd.trans ?_⟩
    rw [show pow10 0 = 1 from rfl, Nat.mul_one, he, Nat.cast_zero, sub_zero]
  unfold layout
  simp only
  split
  · obtain ⟨l, htext, hfraction, hexponent, hvalue⟩ :=
      h.exists_spelling_zeros (n - (c :: cs).length).toNat
    refine ⟨l, htext, by omega, by simp only [hfraction, true_and]; omega,
      (n - (c :: cs).length).toNat, hvalue.trans (congrArg (mk _) ?_)⟩
    omega
  split
  · obtain ⟨k, hk⟩ : ∃ k, n.toNat = k + 1 := ⟨n.toNat - 1, by omega⟩
    obtain ⟨l, htext, hfraction, hexponent, hvalue⟩ := h.exists_spelling_among (k := k) (by omega)
    rw [hk]
    exact ⟨l, htext, by omega, by simp only [hfraction, false_and, false_iff]; omega,
      hplain hvalue (by omega)⟩
  split
  · obtain ⟨l, htext, hfraction, hexponent, hvalue⟩ := h.exists_spelling_front (-n).toNat
    exact ⟨l, htext, by omega, by simp only [hfraction, false_and, false_iff]; omega,
      hplain hvalue (by omega)⟩
  · obtain ⟨l, htext, hexponent, hvalue⟩ := h.exists_spelling_scientific (e := n - 1) (by omega)
    exact ⟨l, htext, by omega, by omega, hplain hvalue (by omega)⟩

/-- Digits laid out with the point at position `n` are read with the value `0.d₁…dₖ · 10 ^ n`; the
literal shows `z` zeros behind them. -/
theorem unsigned?_layout {digits : Bytes} (h : IsSignificant digits) (n : ℤ) :
    ∃ z : ℕ, unsigned? (layout digits n) =
      some ⟨digitsValue digits * pow10 z, n - digits.length - z⟩ := by
  obtain ⟨l, htext, -, -, z, hvalue⟩ := exists_spelling h n
  exact ⟨z, by rw [← htext, l.unsigned?_text, hvalue]⟩

end Decimal

/-! ## Texts of numbers -/

namespace Decimal

variable {d : Decimal}

theorem rdropWhile_replicate (text : Bytes) (z : ℕ) :
    (text ++ List.replicate z (byte '0')).rdropWhile (· == byte '0') =
      text.rdropWhile (· == byte '0') := by
  induction z with
  | zero => rw [List.replicate_zero, List.append_nil]
  | succ z ih => rw [List.replicate_succ', ← List.append_assoc, List.rdropWhile_concat_pos _ _ _ rfl, ih]

/-- The digits that are written, and the zeros that are not. -/
theorem exists_zeros (d : Decimal) :
    ∃ z, decimal d.coefficient = d.digits ++ List.replicate z (byte '0') ∧
      d.coefficient = digitsValue d.digits * pow10 z := by
  have hzeros : ∀ c ∈ (decimal d.coefficient).rtakeWhile (· == byte '0'), c = byte '0' :=
    fun c hc => by simpa using List.mem_rtakeWhile_imp hc
  have hsplit : decimal d.coefficient = d.digits ++ List.replicate
      ((decimal d.coefficient).rtakeWhile (· == byte '0')).length (byte '0') := by
    rw [← List.eq_replicate_of_mem hzeros]
    exact (List.rdropWhile_append_rtakeWhile ..).symm
  refine ⟨_, hsplit, ?_⟩
  have hvalue := digitsValue_decimal d.coefficient
  rw [hsplit, digitsValue_append, digitsValue_replicate_zero, List.length_replicate] at hvalue
  exact hvalue.symm

theorem head?_digits (h : 0 < d.coefficient) : d.digits.head? ≠ some (byte '0') := by
  obtain ⟨z, hz, -⟩ := d.exists_zeros
  have hhead := head?_decimal h
  rwa [hz, List.head?_append_of_ne_nil _ (digits_ne_nil h)] at hhead

private theorem isSignificant_digits (h : 0 < d.coefficient) : IsSignificant d.digits where
  nonempty := digits_ne_nil h
  isDigit := isDigit_of_mem_digits
  first := head?_digits h
  last := by
    rw [List.getLast?_eq_some_getLast (digits_ne_nil h)]
    exact fun hzero => getLast_digits (digits_ne_nil h) (Option.some.inj hzero)

/-- The text of a decimal is read with its value and with its digits. -/
theorem exists_unsigned? (h : 0 < d.coefficient) :
    ∃ e, Numeral.unsigned? (layout d.digits d.pointPosition) = some e ∧ e.value = d.value ∧
      e.digits = d.digits := by
  have hne := digits_ne_nil h
  have hhead := head?_digits h
  obtain ⟨k, hread⟩ := unsigned?_layout (isSignificant_digits h) d.pointPosition
  refine ⟨_, hread, ?_, ?_⟩
  · obtain ⟨z, hz, hcoefficient⟩ := d.exists_zeros
    have hexponent : d.exponent = d.pointPosition - d.digits.length - z := by
      rw [pointPosition, hz, List.length_append, List.length_replicate, Nat.cast_add]
      ring
    calc (mk (digitsValue d.digits * pow10 k) (d.pointPosition - d.digits.length - k)).value
        = (mk (digitsValue d.digits) (d.pointPosition - d.digits.length)).value :=
          value_mul_pow10 ..
      _ = (mk (digitsValue d.digits * pow10 z) (d.pointPosition - d.digits.length - z)).value :=
          (value_mul_pow10 ..).symm
      _ = d.value := by rw [← hexponent, ← hcoefficient]
  · have hpos := digitsValue_pos_of_head hne hhead
    have hstrip : (decimal (digitsValue d.digits * pow10 k)).rdropWhile (· == byte '0') =
        d.digits.rdropWhile (· == byte '0') := by
      rw [decimal_mul_pow10 hpos, rdropWhile_replicate,
        decimal_digitsValue hne isDigit_of_mem_digits hhead]
    refine hstrip.trans (List.rdropWhile_eq_self_iff.mpr fun hne hlast => ?_)
    exact getLast_digits hne (by simpa using hlast)

end Decimal

namespace Numeral

open Number

theorem read?_zero (negative : Bool) (exact : Representable 0) :
    read? (finite negative 0 exact).text = some (false, ⟨0, 0⟩) := by
  have htext : (finite negative 0 exact).text = ascii "0" := by
    rw [text_finite, magnitude, if_pos rfl, bne_self_eq_false, Bool.and_false]
    rfl
  rw [htext]
  decide +kernel

/-- The text of a number that is not zero is read with its sign and with the value and the digits of
the decimal that was found for it. -/
theorem read?_text (negative : Bool) {units : ℕ} (exact : Representable units) (hunits : units ≠ 0) :
    ∃ d, read? (finite negative units exact).text = some (negative, d) ∧
      d.value = (shortest units).value ∧ d.digits = (shortest units).digits := by
  obtain ⟨d, hread, hvalue, hdigits⟩ := Decimal.exists_unsigned? (d := shortest units)
    (coefficient_shortest_pos (Nat.pos_of_ne_zero hunits))
  have hmagnitude : unsigned? (magnitude units) = some d := by
    rw [magnitude, if_neg hunits]
    exact hread
  refine ⟨d, ?_, hvalue, hdigits⟩
  rw [text_finite]
  cases negative with
  | true =>
    have hhead : (ascii "-" ++ magnitude units).head? = some (byte '-') := rfl
    have htail : (ascii "-" ++ magnitude units).tail = magnitude units := rfl
    rw [if_pos (by simpa using hunits), read?, if_pos hhead, htail, hmagnitude]
    rfl
  | false =>
    have hhead : (magnitude units).head? ≠ some (byte '-') := by
      obtain ⟨c, cs, hcons, hc⟩ := (isUnsigned_magnitude units).exists_cons
      rw [hcons]
      rintro ⟨⟩
      cases hc
    rw [if_neg (by simp), List.nil_append, read?, if_neg hhead, hmagnitude]
    rfl

end Numeral

end Roar
