import Roar.Proofs.Number.Numeral

/-!
# The layout of digits

Significant digits `d₁…dₖ` with the point at position `n` are written in one of four ways, and each of
them is a literal in parts (`Decimal.exists_spelling`). A zero of such a literal stands in the whole
part, behind the point or in the exponent. Wherever it is, leaving it out changes the value, unless it
is alone in front of the point (`Numeral.Spelling.terse`).

`Decimal.layout_denotes` puts this together: the text stands for `0.d₁…dₖ · 10 ^ n`, has an exponent
for `n > 21` and `n ≤ -6` only, is digits alone for `k ≤ n ≤ 21` only, and has no superfluous zero.
-/

namespace Roar

open Byte

/-- A byte of two texts in a row is in the first or in the second. -/
theorem Bytes.cut_append {c : UInt8} {front back first second : Bytes}
    (h : first ++ second = front ++ c :: back) :
    (∃ middle, first = front ++ c :: middle ∧ back = middle ++ second) ∨
      ∃ middle, front = first ++ middle ∧ second = middle ++ c :: back := by
  obtain ⟨middle, hfront, hsecond⟩ | ⟨middle, hfirst, hback⟩ := List.append_eq_append_iff.mp h
  · exact .inr ⟨middle, hfront, hsecond⟩
  · cases middle with
    | nil =>
      rw [List.append_nil] at hfirst
      exact .inr ⟨[], by rw [hfirst, List.append_nil], hback.symm⟩
    | cons d middle =>
      obtain ⟨rfl, rfl⟩ := List.cons.inj hback
      exact .inl ⟨middle, hfirst, rfl⟩

/-! ## Values of digits -/

namespace Decimal

/-- The rational `0.d₁…dₖ`. -/
def fractionValue (digits : Bytes) : ℚ :=
  digits.foldr (fun c behind => ((c - byte '0').toNat + behind) / 10) 0

theorem fractionValue_mul (digits : Bytes) :
    fractionValue digits * 10 ^ digits.length = digitsValue digits := by
  induction digits with
  | nil => exact zero_mul _
  | cons c cs ih =>
    have hcons : fractionValue (c :: cs) = ((c - byte '0').toNat + fractionValue cs) / 10 := rfl
    rw [hcons, digitsValue_cons, List.length_cons, pow_succ]
    push_cast [cast_pow10]
    rw [← ih]
    ring

/-- A zero moves the digits in front of it by one place. -/
theorem digitsValue_zero_between (front back : Bytes) :
    digitsValue (front ++ byte '0' :: back) =
      10 * (digitsValue front * pow10 back.length) + digitsValue back := by
  have hzero : digitsValue (byte '0' :: back) = digitsValue back := rfl
  rw [digitsValue_append, hzero, List.length_cons,
    show pow10 (back.length + 1) = pow10 back.length * 10 from Nat.pow_succ ..]
  ring

/-- Digits behind something get smaller when a zero among them is left out. -/
theorem digitsValue_lt_of_zero {front : Bytes} (hfront : 0 < digitsValue front) (back : Bytes) :
    digitsValue (front ++ back) < digitsValue (front ++ byte '0' :: back) := by
  have hplace := Nat.mul_pos hfront (pow10_pos back.length)
  rw [digitsValue_zero_between, digitsValue_append]
  omega

theorem value_mk_inj {c c' : ℕ} {e : ℤ} (h : (mk c e).value = (mk c' e).value) : c = c' := by
  have hten : (10 : ℚ) ^ e ≠ 0 := zpow_ne_zero e (by norm_num)
  exact Nat.cast_injective (mul_right_cancel₀ hten h)

theorem value_mk_exponent_inj {c : ℕ} {e e' : ℤ} (hc : 0 < c)
    (h : (mk c e).value = (mk c e').value) : e = e' := by
  have hcoefficient : (c : ℚ) ≠ 0 := Nat.cast_ne_zero.mpr hc.ne'
  exact zpow_right_injective₀ (by norm_num) (by norm_num) (mul_left_cancel₀ hcoefficient h)

end Decimal

namespace Numeral

open Decimal

/-! ## Superfluous zeros -/

/-- The literal has an exponent. -/
def hasExponent (text : Bytes) : Bool := text.any fun c => c == byte 'e' || c == byte 'E'

/-- The zero between two parts of a literal is superfluous: without it, they are a literal of the same
value. -/
def Superfluous (front back : Bytes) : Prop :=
  ∃ d e, unsigned? (front ++ byte '0' :: back) = some d ∧ unsigned? (front ++ back) = some e ∧
    e.value = d.value

/-- No zero of the literal is superfluous, but for one that stands in front of the point for want of
another digit. -/
def Terse (text : Bytes) : Prop :=
  ∀ front back, text = front ++ byte '0' :: back → Superfluous front back →
    front = [] ∧ back.head? = some (byte '.')

theorem hasExponent_digits {digits : Bytes} (h : ∀ c ∈ digits, isDigit c) :
    hasExponent digits = false := by
  refine List.any_eq_false.mpr fun c hc hmark => ?_
  have hdigit := h c hc
  rcases Bool.or_eq_true_iff.mp hmark with hmark | hmark
  · rw [beq_iff_eq.mp hmark] at hdigit
    exact absurd hdigit (by decide)
  · rw [beq_iff_eq.mp hmark] at hdigit
    exact absurd hdigit (by decide)

theorem hasExponent_append (front back : Bytes) :
    hasExponent (front ++ back) = (hasExponent front || hasExponent back) := List.any_append

theorem hasExponent_pointed {fraction : Bytes} (h : ∀ c ∈ fraction, isDigit c) :
    hasExponent (pointed fraction) = false := by
  unfold pointed
  split
  · rfl
  · have hpoint : hasExponent (byte '.' :: fraction) = hasExponent fraction := rfl
    rw [hpoint, hasExponent_digits h]

/-! ## Leaving out a zero -/

/-- A number without one of its zeros is a smaller one. -/
theorem exists_decimal_of_zero {n : ℕ} (hn : 0 < n) {front back : Bytes}
    (h : decimal n = front ++ byte '0' :: back) :
    ∃ m, 0 < m ∧ m < n ∧ front ++ back = decimal m := by
  have hhead := head?_decimal hn
  have hfront : front ≠ [] := by
    rintro rfl
    exact hhead (congrArg List.head? h)
  rw [h, List.head?_append_of_ne_nil _ hfront] at hhead
  have hne : front ++ back ≠ [] := List.append_ne_nil_of_left_ne_nil hfront back
  have hhead' : (front ++ back).head? ≠ some (byte '0') := by
    rwa [List.head?_append_of_ne_nil _ hfront]
  have hdigits : ∀ c ∈ front ++ back, isDigit c := fun c hc =>
    isDigit_of_mem_decimal c (h ▸ ((List.sublist_cons_self _ back).append_left front).subset hc)
  have hless : digitsValue (front ++ back) < n := by
    rw [← digitsValue_decimal n, h]
    exact digitsValue_lt_of_zero (digitsValue_pos_of_head hfront hhead) back
  exact ⟨_, digitsValue_pos_of_head hne hhead', hless, (decimal_digitsValue hne hdigits hhead').symm⟩

/-- An exponent without one of its zeros is another exponent. -/
theorem exists_scale_of_zero {e : ℤ} {front back : Bytes} (h : scale e = front ++ byte '0' :: back) :
    ∃ e', front ++ back = scale e' ∧ e' ≠ e := by
  by_cases he : e = 0
  · rw [scale, if_pos he] at h
    exact absurd h.symm (List.append_ne_nil_of_right_ne_nil front (List.cons_ne_nil _ back))
  rw [scale, if_neg he] at h
  obtain ⟨middle, hmark, -⟩ | ⟨middle, rfl, hdecimal⟩ := Bytes.cut_append h
  · have hzero : byte '0' ∈ ascii "e" ++ (if 0 ≤ e then ascii "+" else ascii "-") := by
      rw [hmark]
      exact List.mem_append_right front List.mem_cons_self
    split at hzero
    · exact absurd hzero (by decide)
    · exact absurd hzero (by decide)
  · obtain ⟨m, hpos, hless, hshort⟩ := exists_decimal_of_zero (Int.natAbs_pos.mpr he) hdecimal
    refine ⟨if 0 ≤ e then m else -m, ?_, by split <;> omega⟩
    rw [List.append_assoc, hshort, scale]
    by_cases hsign : 0 ≤ e
    · rw [if_pos hsign, if_pos hsign, if_neg (by omega), if_pos (by omega), Int.natAbs_natCast]
    · rw [if_neg hsign, if_neg hsign, if_neg (by omega), if_neg (by omega), Int.natAbs_neg,
        Int.natAbs_natCast]

/-- A zero of the point and the digits behind it is one of these digits. -/
theorem exists_fraction_of_zero {fraction front back : Bytes}
    (h : pointed fraction = front ++ byte '0' :: back) :
    ∃ more, front = byte '.' :: more ∧ fraction = more ++ byte '0' :: back := by
  unfold pointed at h
  split at h
  · exact absurd h.symm (List.append_ne_nil_of_right_ne_nil front (List.cons_ne_nil _ back))
  · cases front with
    | nil => exact absurd (List.cons.inj h).1 (by decide)
    | cons c more =>
      obtain ⟨rfl, hmore⟩ := List.cons.inj h
      exact ⟨more, rfl, hmore⟩

/-- A whole part of several digits keeps its first digit when a zero is left out. -/
theorem IsWhole.without_zero {front back : Bytes} (h : IsWhole (front ++ byte '0' :: back))
    (hfront : front ≠ []) : IsWhole (front ++ back) ∧ 0 < digitsValue front := by
  obtain ⟨c, cs, rfl⟩ := List.exists_cons_of_ne_nil hfront
  obtain ⟨hdigits, hback⟩ := List.forall_mem_append.mp h.digits
  obtain ⟨hc, hcs⟩ := List.forall_mem_cons.mp hdigits
  have hzero : c ≠ byte '0' := by
    intro hzero
    have hlength := h.zero (congrArg some hzero)
    simp only [List.length_append, List.length_cons] at hlength
    omega
  refine ⟨isWhole_cons hc hzero (List.forall_mem_append.mpr ⟨hcs, ?_⟩),
    digitsValue_pos List.mem_cons_self hzero⟩
  exact (List.forall_mem_cons.mp hback).2

namespace Spelling

variable (l : Spelling) {front back : Bytes}

/-- A zero behind other digits of the whole part counts. -/
theorem whole_zero_counts (hwhole : l.whole = front ++ byte '0' :: back) (hfront : front ≠ []) :
    ∃ d, unsigned? (front ++ back ++ (pointed l.fraction ++ scale l.exponent)) = some d ∧
      d.value ≠ l.toDecimal.value := by
  obtain ⟨hshort, hpos⟩ := (hwhole ▸ l.isWhole).without_zero hfront
  refine ⟨_, unsigned?_parts hshort l.isFraction l.exponent, fun hvalue => ?_⟩
  have hless := digitsValue_lt_of_zero hpos (back ++ l.fraction)
  have hsame := value_mk_inj hvalue
  rw [hwhole, List.append_assoc, List.append_assoc, List.cons_append] at hsame
  omega

/-- A zero behind the point counts, as there is another digit behind it. -/
theorem fraction_zero_counts (hfraction : l.fraction = front ++ byte '0' :: back) :
    ∃ d, unsigned? (l.whole ++ byte '.' :: (front ++ (back ++ scale l.exponent))) = some d ∧
      d.value ≠ l.toDecimal.value := by
  have hdigits : ∀ c ∈ front ++ back, isDigit c := by
    intro c hc
    refine l.isFraction c ?_
    rw [hfraction]
    exact (List.sublist_cons_self _ back).append_left front |>.subset hc
  have hlast := l.last
  have hback : 0 < digitsValue back := by
    rcases List.eq_nil_or_concat' back with rfl | ⟨more, c, rfl⟩
    · exact absurd (by rw [hfraction, List.getLast?_concat]) hlast
    · rw [hfraction, ← List.cons_append, ← List.append_assoc, List.getLast?_concat] at hlast
      exact digitsValue_pos (List.mem_append_right more List.mem_cons_self) fun hc =>
        hlast (congrArg some hc)
  have hread := unsigned?_point l.isWhole hdigits (isExponent_scale l.exponent)
  rw [List.append_assoc] at hread
  refine ⟨_, hread, fun hvalue => ?_⟩
  have hplaces : l.exponent - l.fraction.length = l.exponent - (front ++ back).length - (1 : ℕ) := by
    rw [hfraction, List.length_append, List.length_append, List.length_cons]
    omega
  rw [← value_mul_pow10 _ 1, toDecimal, hplaces] at hvalue
  have hsame := value_mk_inj hvalue
  rw [hfraction, ← List.append_assoc, ← List.append_assoc, digitsValue_append,
    digitsValue_zero_between, show pow10 1 = 10 from rfl] at hsame
  omega

/-- A zero of the exponent counts. -/
theorem exponent_zero_counts (hscale : scale l.exponent = front ++ byte '0' :: back) :
    ∃ d, unsigned? (l.whole ++ (pointed l.fraction ++ (front ++ back))) = some d ∧
      d.value ≠ l.toDecimal.value := by
  obtain ⟨e, hshort, hne⟩ := exists_scale_of_zero hscale
  rw [hshort]
  refine ⟨_, unsigned?_parts l.isWhole l.isFraction e, fun hvalue => hne ?_⟩
  have hsame := value_mk_exponent_inj l.pos hvalue
  omega

/-- A zero that stands in front of all else is followed by the point. -/
theorem first_zero_alone (hwhole : l.whole = byte '0' :: back) : back = [] ∧ l.fraction ≠ [] := by
  have hlength : (byte '0' :: back).length = 1 := by
    rw [← hwhole]
    exact l.isWhole.zero (by rw [hwhole]; rfl)
  obtain rfl := List.length_eq_zero_iff.mp (Nat.succ.inj hlength)
  refine ⟨rfl, fun hnil => ?_⟩
  have hpos := l.pos
  rw [hwhole, hnil] at hpos
  exact absurd hpos (by decide)

/-- No zero can be left out but one in front of the point. -/
theorem terse : Terse l.text := by
  rintro front back htext ⟨d, e, hd, he, hvalue⟩
  rw [← htext, unsigned?_text] at hd
  obtain rfl := Option.some.inj hd
  have hcounts {text : Bytes} (hshort : front ++ back = text)
      (h : ∃ d, unsigned? text = some d ∧ d.value ≠ l.toDecimal.value) : False := by
    obtain ⟨d, hread, hne⟩ := h
    rw [← hshort, he] at hread
    exact hne (Option.some.inj hread ▸ hvalue)
  -- the zero is in the whole part, behind the point or in the exponent
  obtain ⟨middle, hwhole, rfl⟩ | ⟨middle, rfl, hrest⟩ := Bytes.cut_append htext
  · by_cases hfront : front = []
    · subst hfront
      obtain ⟨rfl, hfraction⟩ := l.first_zero_alone hwhole
      refine ⟨rfl, ?_⟩
      rw [pointed, if_neg hfraction]
      rfl
    · exact (hcounts (List.append_assoc ..).symm (l.whole_zero_counts hwhole hfront)).elim
  obtain ⟨behind, hpointed, rfl⟩ | ⟨behind, rfl, hscale⟩ := Bytes.cut_append hrest
  · obtain ⟨more, rfl, hfraction⟩ := exists_fraction_of_zero hpointed
    exact (hcounts (List.append_assoc ..) (l.fraction_zero_counts hfraction)).elim
  · refine (hcounts ?_ (l.exponent_zero_counts hscale)).elim
    rw [List.append_assoc, List.append_assoc]

/-! ## The bytes of a literal -/

/-- Neither a point nor the mark of an exponent is a digit. -/
theorem isDigit_text_iff : l.text.all isDigit ↔ l.fraction = [] ∧ l.exponent = 0 := by
  rw [text, List.all_append, List.all_append, List.all_eq_true.mpr l.isWhole.digits, Bool.true_and,
    Bool.and_eq_true]
  refine and_congr ?_ ?_
  · unfold pointed
    split
    · rename_i hnil
      exact ⟨fun _ => hnil, fun _ => rfl⟩
    · rename_i hnil
      exact ⟨fun h => absurd (List.all_eq_true.mp h _ List.mem_cons_self) (by decide),
        fun h => absurd h hnil⟩
  · unfold scale
    split
    · rename_i he
      exact ⟨fun _ => he, fun _ => rfl⟩
    · rename_i he
      exact ⟨fun h => absurd (List.all_eq_true.mp h _ List.mem_cons_self) (by decide),
        fun h => absurd h he⟩

theorem hasExponent_text_iff : hasExponent l.text ↔ l.exponent ≠ 0 := by
  rw [text, hasExponent_append, hasExponent_append, hasExponent_digits l.isWhole.digits,
    hasExponent_pointed l.isFraction, Bool.false_or, Bool.false_or]
  unfold scale
  split
  · rename_i he
    exact ⟨fun h => absurd h Bool.false_ne_true, fun h => absurd he h⟩
  · rename_i he
    exact ⟨fun _ => he, fun _ => rfl⟩

end Spelling

end Numeral

/-! ## Layouts -/

namespace Decimal

open Numeral

/-- Significant digits with the point at a position stand for `0.d₁…dₖ · 10 ^ n`. -/
theorem exists_unsigned?_layout {digits : Bytes} (h : IsSignificant digits) (n : ℤ) :
    ∃ d, unsigned? (layout digits n) = some d ∧ d.value = fractionValue digits * 10 ^ n := by
  obtain ⟨z, hread⟩ := unsigned?_layout h n
  refine ⟨_, hread, ?_⟩
  rw [value_mul_pow10, value, ← fractionValue_mul, ← zpow_natCast, mul_assoc,
    ← zpow_add₀ (by norm_num), add_sub_cancel]

/-- The layout of significant digits `d₁…dₖ`, of which the first counts `10 ^ exponent`. For
`n = exponent + 1`, it is a decimal literal of the value `0.d₁…dₖ · 10 ^ n`. It has an exponent exactly
for `n > 21` and for `n ≤ -6`, it is digits alone exactly for `k ≤ n ≤ 21`, and in no case is a zero
superfluous. -/
theorem layout_denotes {digits : Bytes} (h : IsSignificant digits) (exponent : ℤ) :
    (∃ d, unsigned? (layout digits (exponent + 1)) = some d ∧
        d.value = fractionValue digits * 10 ^ (exponent + 1)) ∧
      (hasExponent (layout digits (exponent + 1)) ↔ 21 < exponent + 1 ∨ exponent + 1 ≤ -6) ∧
      ((layout digits (exponent + 1)).all Byte.isDigit ↔
        digits.length ≤ exponent + 1 ∧ exponent + 1 ≤ 21) ∧
      Terse (layout digits (exponent + 1)) := by
  obtain ⟨l, htext, hexponent, hplain, -⟩ := exists_spelling h (exponent + 1)
  refine ⟨exists_unsigned?_layout h (exponent + 1), ?_⟩
  rw [← htext, ← hexponent, ← hplain]
  exact ⟨l.hasExponent_text_iff, l.isDigit_text_iff, l.terse⟩

/-- Digits with zeros among them, at the first position where they get an exponent. -/
theorem layout_belowMillionth :
    IsSignificant (ascii "10203") ∧ layout (ascii "10203") (-7 + 1) = ascii "1.0203e-7" ∧
      (∃ d, unsigned? (ascii "1.0203e-7") = some d ∧ d.value = 10203 / 10 ^ 11) ∧
      hasExponent (ascii "1.0203e-7") ∧ ¬ (ascii "1.0203e-7").all Byte.isDigit ∧
      Terse (ascii "1.0203e-7") := by
  have hsignificant : IsSignificant (ascii "10203") :=
    ⟨by decide, List.all_eq_true.mp rfl, by decide, by decide⟩
  have htext : layout (ascii "10203") (-7 + 1) = ascii "1.0203e-7" := by decide +kernel
  have hfraction : fractionValue (ascii "10203") * 10 ^ (-7 + 1 : ℤ) = 10203 / 10 ^ 11 := by
    decide +kernel
  obtain ⟨hread, hexponent, hplain, hterse⟩ := layout_denotes hsignificant (-7)
  rw [htext] at hread hexponent hplain hterse
  rw [hfraction] at hread
  have hmarked : ¬ (ascii "1.0203e-7").all Byte.isDigit := fun h =>
    absurd (hplain.mp h).1 (by decide)
  exact ⟨hsignificant, htext, hread, hexponent.mpr (by decide), hmarked, hterse⟩

end Decimal

end Roar
