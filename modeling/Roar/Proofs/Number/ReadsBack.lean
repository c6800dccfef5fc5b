import Roar.Proofs.Number.Numeral

/-!
# The text of a number reads back

The decimal that is found for a number rounds to it (`Number.readsBack_shortest`): 17 digits are
always enough, because there are fewer than `10 ^ 16` numbers of 53 bits with the same spacing
(`lastPlace_lt_spacing`). Reading a text as the rational that it stands for, and rounding that,
therefore gives the number back (`Number.text_readsBack`), and numbers that are not zero have
different texts.
-/

namespace Roar

namespace Number

/-- How many `10 ^ -1074` are in a unit. -/
@[irreducible]
def fives : ℕ := Nat.pow 5 1074

theorem fives_pos : 0 < fives := by decide +kernel

theorem one_mul_fives : one * fives = pow10 1074 := by decide +kernel

/-- How many `10 ^ -1074` are in so many units. -/
def fine (units : ℕ) : ℕ := units * fives

/-- The last digit kept by a decimal of `p` digits, in `10 ^ -1074`. -/
def lastPlace (units p : ℕ) : ℕ := pow10 (digitCount (fine units) - p)

theorem lastPlace_pos (units p : ℕ) : 0 < lastPlace units p := pow10_pos _

/-- So many times the last of `p` digits. -/
def multiple (units p c : ℕ) : Decimal := ⟨c, ((digitCount (fine units) - p : ℕ) : ℤ) - (1074 : ℕ)⟩

/-- The nearest decimal of `p` digits is a multiple of the last place. -/
theorem nearest_eq (units p : ℕ) :
    Decimal.nearest units p = multiple units p (roundDiv (fine units) (lastPlace units p)) := by
  delta multiple lastPlace fine fives
  rfl

/-- A multiple of the last place, in units. -/
theorem value_multiple (units p c : ℕ) :
    (multiple units p c).value * one = (c * lastPlace units p : ℕ) / fives := by
  have hten : (one : ℚ) * fives = 10 ^ 1074 := by
    rw [← Nat.cast_mul, one_mul_fives, cast_pow10]
  have hpos : (fives : ℚ) ≠ 0 := Nat.cast_ne_zero.mpr fives_pos.ne'
  rw [Decimal.value, multiple, eq_div_iff hpos, mul_assoc, hten, zpow_sub₀ (by norm_num), zpow_natCast,
    zpow_natCast, Nat.cast_mul, lastPlace, cast_pow10]
  field_simp

/-! ## Seventeen digits -/

private theorem lt_pow10_digitCountFrom {n fuel k : ℕ} (h : n < pow10 (k + fuel)) :
    n < pow10 (digitCountFrom n fuel k) := by
  induction fuel generalizing k with
  | zero => exact h
  | succ fuel ih =>
    unfold digitCountFrom
    split
    · assumption
    · exact ih (by rwa [Nat.add_right_comm])

/-- The digits counted are all there are. -/
theorem lt_pow10_digitCount (n : ℕ) : n < pow10 (digitCount n) := by
  refine lt_pow10_digitCountFrom ?_
  calc n < pow2 (n.log2 + 1) := Nat.lt_log2_self
    _ ≤ pow10 (n.log2 + 1) := Nat.pow_le_pow_left (by decide) _
    _ ≤ pow10 (n.log2 * 1233 / 4096 + 1 + (n.log2 + 1)) := pow10_le_pow10 (by omega)

section Digits

variable {units : ℕ} (hunits : 0 < units)

include hunits

private theorem fine_pos : 0 < fine units := Nat.mul_pos hunits fives_pos

/-- A single unit has more digits than are ever written. -/
theorem digitCount_fine_ge : 17 ≤ digitCount (fine units) := by
  have hone : pow10 16 ≤ fives := by decide +kernel
  have hle : fives ≤ fine units := Nat.le_mul_of_pos_left _ hunits
  have hlt := lt_pow10_digitCount (fine units)
  have : 16 < digitCount (fine units) := by
    by_contra hfew
    have := pow10_le_pow10 (Nat.le_of_not_lt hfew)
    omega
  exact this

/-- The first of `p` digits stands at the head of the number. -/
theorem pow10_mul_lastPlace_le {p : ℕ} (hp : 0 < p) (hle : p ≤ 17) :
    pow10 (p - 1) * lastPlace units p ≤ fine units := by
  have hmany := digitCount_fine_ge hunits
  have hfirst : pow10 (p - 1) * lastPlace units p = pow10 (digitCount (fine units) - 1) := by
    rw [lastPlace, ← pow10_add]
    congr 1
    omega
  rw [hfirst]
  exact pow10_digitCount_le (fine_pos hunits)

theorem fine_lt_pow10_mul {p : ℕ} (hle : p ≤ 17) :
    fine units < pow10 p * lastPlace units p := by
  have hmany := digitCount_fine_ge hunits
  rw [lastPlace, ← pow10_add, Nat.add_sub_cancel' (by omega)]
  exact lt_pow10_digitCount (fine units)

/-- The last of 17 digits is worth less than the distance to the number below. -/
theorem lastPlace_lt_spacing :
    lastPlace units 17 < spacing (units - 1) * fives := by
  have hbits : units ≤ spacing (units - 1) * pow2 53 := by
    have := lt_spacing_mul (units - 1)
    omega
  have hpower : pow2 53 < pow10 16 := by decide
  refine Nat.lt_of_mul_lt_mul_right (a := pow10 16) ?_
  calc lastPlace units 17 * pow10 16
      = pow10 16 * lastPlace units 17 := Nat.mul_comm ..
    _ ≤ units * fives := pow10_mul_lastPlace_le (p := 17) hunits (by decide) le_rfl
    _ ≤ spacing (units - 1) * pow2 53 * fives := Nat.mul_le_mul_right _ hbits
    _ = spacing (units - 1) * fives * pow2 53 := Nat.mul_right_comm ..
    _ < spacing (units - 1) * fives * pow10 16 :=
      Nat.mul_lt_mul_of_pos_left hpower (Nat.mul_pos (spacing_pos _) fives_pos)

private theorem readsBack_nearest_seventeen (exact : Representable units) :
    readsBack units (Decimal.nearest units 17) := by
  obtain ⟨hlow, hhigh, -⟩ := roundDiv_spec (fine units) (lastPlace_pos units 17)
  have hplace := lastPlace_lt_spacing hunits
  have hspacing := Nat.mul_le_mul_right (fives) (spacing_mono (Nat.sub_le units 1))
  have hmiddle : 2 * units * fives = 2 * fine units := Nat.mul_assoc ..
  rw [readsBack_iff exact, nearest_eq, value_multiple, nearest_iff_within (by positivity)]
  refine ⟨exact.2, within_div fives_pos ?_ ?_ ?_ ?_⟩
  · rw [Nat.add_mul]
    omega
  · omega
  -- neither end is reached
  · rw [Nat.add_mul]
    omega
  · omega

end Digits

/-- The search ends on a decimal that reads back if the last one does. -/
theorem readsBack_shortestFrom {units n p : ℕ} (h : readsBack units (Decimal.nearest units (p + n))) :
    readsBack units (shortestFrom units n p) := by
  induction n generalizing p with
  | zero => exact h
  | succ n ih =>
    rw [Nat.add_comm n 1, ← Nat.add_assoc] at h
    unfold shortestFrom
    simp only
    split
    · assumption
    · exact ih h

theorem readsBack_shortest {units : ℕ} (exact : Representable units) (hunits : 0 < units) :
    readsBack units (shortest units) :=
  readsBack_shortestFrom (readsBack_nearest_seventeen hunits exact)

/-! ## The text of a number -/

section Text

variable (negative : Bool) {units : ℕ} (exact : Representable units)

theorem nearest_signed {x : ℚ} (h : Nearest x units) :
    Nearest (if negative then -x else x) (signed negative units) := by
  cases negative with
  | true => exact h.neg
  | false => exact h

/-- A rational that is nearest to a double is rounded to this double, and to nothing else than
numbers that are equal to it. -/
theorem roundsTo_iff_eq {q : ℚ} (h : Nearest (q * one) (signed negative units)) (x : Number) :
    RoundsTo q x ↔ x.eq (finite negative units exact) := by
  constructor
  · intro ⟨s, m, hnearest, hx⟩
    have hsame : signed s m = signed negative units := hnearest.unique h
    obtain rfl : m = units := by rw [← natAbs_signed s m, hsame, natAbs_signed]
    rw [hx, ofUnits, dif_pos exact]
    exact decide_eq_true hsame
  · intro heq
    cases x with
    | nan => exact absurd heq Bool.false_ne_true
    | infinity s =>
      have hsame : signed s (pow2 2098) = signed negative units := of_decide_eq_true heq
      have hunits : pow2 2098 = units := by rw [← natAbs_signed s (pow2 2098), hsame, natAbs_signed]
      exact absurd exact.1 (by omega)
    | finite s m hm =>
      have hsame : signed s m = signed negative units := of_decide_eq_true heq
      exact ⟨s, m, hsame ▸ h, by rw [ofUnits, dif_pos hm]⟩

theorem value_mul_one (d : Decimal) :
    Numeral.value (negative, d) * one = if negative then -(d.value * one) else d.value * one := by
  cases negative with
  | true => exact neg_mul ..
  | false => rfl

theorem exists_read?_text :
    ∃ numeral, Numeral.read? (finite negative units exact).text = some numeral ∧
      Nearest (Numeral.value numeral * one) (signed negative units) := by
  by_cases hunits : units = 0
  · subst hunits
    refine ⟨_, Numeral.read?_zero negative exact, ?_⟩
    have hzero : Numeral.value (false, ⟨0, 0⟩) = 0 := by simp [Numeral.value, Decimal.value]
    rw [hzero, zero_mul, signed_zero]
    exact nearest_zero
  · obtain ⟨d, hread, hvalue, -⟩ := Numeral.read?_text negative exact hunits
    refine ⟨_, hread, ?_⟩
    have hnearest := (readsBack_iff exact _).mp
      (readsBack_shortest exact (Nat.pos_of_ne_zero hunits))
    rw [value_mul_one, hvalue]
    exact nearest_signed negative hnearest

/-- Two finite numbers with the same text are equal, up to the sign of a zero. -/
theorem signed_eq_of_text {s : Bool} {m : ℕ} (hm : Representable m)
    (h : (finite s m hm).text = (finite negative units exact).text) :
    signed s m = signed negative units := by
  obtain ⟨numeral, hread, hnearest⟩ := exists_read?_text negative exact
  obtain ⟨numeral', hread', hnearest'⟩ := exists_read?_text s hm
  obtain rfl : numeral' = numeral := Option.some.inj (by rw [← hread', h, hread])
  exact hnearest'.unique hnearest

end Text

theorem eq_of_signed_eq {s t : Bool} {m n : ℕ} (hn : n ≠ 0) (h : signed s m = signed t n) :
    s = t ∧ m = n := by
  obtain ⟨rfl, hsign | hzero⟩ := signed_inj.mp h
  · exact ⟨hsign, rfl⟩
  · exact absurd hzero hn

/-- Of the numbers that are not zero, no two have the same text. -/
theorem text_inj {x y : Number} (hx : x.isFinite) (hy : y.isFinite) (hzero : y.isZero = false)
    (h : x.text = y.text) : x = y := by
  cases x with
  | nan | infinity => exact absurd hx Bool.false_ne_true
  | finite s m hm =>
    cases y with
    | nan | infinity => exact absurd hy Bool.false_ne_true
    | finite t n hn =>
      have hne : n ≠ 0 := by simpa only [isZero_finite, beq_eq_false_iff_ne] using hzero
      obtain ⟨rfl, rfl⟩ := eq_of_signed_eq hne (signed_eq_of_text t hn hm h)
      rfl

/-! ## The word of a number -/

/-- The three fields of a word are read as they were put together. -/
theorem ofBits_fields (negative : Bool) {e f : ℕ} (he : e < 2047) (hf : f < pow2 52) :
    ofBits (UInt64.ofNat (toBits.signBit negative + e * pow2 52 + f)) =
      if e = 0 then ofUnits negative f else ofUnits negative ((pow2 52 + f) * pow2 (e - 1)) := by
  have hsign : toBits.signBit negative = if negative then 9223372036854775808 else 0 := rfl
  have h52 : pow2 52 = 4503599627370496 := rfl
  have h63 : pow2 63 = 9223372036854775808 := rfl
  have h11 : pow2 11 = 2048 := rfl
  rw [h52] at hf
  have hword : (UInt64.ofNat (toBits.signBit negative + e * pow2 52 + f)).toNat =
      toBits.signBit negative + e * pow2 52 + f := by
    rw [UInt64.toNat_ofNat', Nat.mod_eq_of_lt]
    rw [hsign, h52]
    split <;> omega
  have hnegative : decide (pow2 63 ≤ toBits.signBit negative + e * pow2 52 + f) = negative := by
    rw [hsign, h52, h63]
    cases negative <;> simp <;> omega
  have hexponent : (toBits.signBit negative + e * pow2 52 + f) / pow2 52 % pow2 11 = e := by
    rw [hsign, h52, h11]
    split <;> omega
  have hfraction : (toBits.signBit negative + e * pow2 52 + f) % pow2 52 = f := by
    rw [hsign, h52]
    split <;> omega
  unfold ofBits
  simp only [hword, hnegative, hexponent, hfraction]
  rw [if_neg he.ne]

/-- A number above the smallest spacing has 53 bits, the first of which is set. -/
theorem div_spacing_bounds {units : ℕ} (hlarge : pow2 52 ≤ units) :
    pow2 52 ≤ units / spacing units ∧ units / spacing units < pow2 53 := by
  have hne : units ≠ 0 := by
    have := pow2_pos 52
    omega
  have hlead : 52 ≤ units.log2 := (Nat.le_log2 hne).mpr hlarge
  have hself : pow2 52 * spacing units = pow2 units.log2 := by
    rw [spacing, ← pow2_add, Nat.add_sub_cancel' hlead]
  constructor
  · rw [Nat.le_div_iff_mul_le (spacing_pos units), hself]
    exact Nat.log2_self_le hne
  · rw [Nat.div_lt_iff_lt_mul (spacing_pos units), Nat.mul_comm]
    exact lt_spacing_mul units

/-- A finite number is the number of its word. -/
theorem ofBits_toBits (negative : Bool) {units : ℕ} (exact : Representable units) :
    ofBits (finite negative units exact).toBits = finite negative units exact := by
  have hunits : ofUnits negative units = finite negative units exact := dif_pos exact
  refine Eq.trans ?_ hunits
  unfold toBits
  simp only
  split
  · rename_i hsmall
    have hword := ofBits_fields negative (e := 0) (by omega) hsmall
    rwa [if_pos rfl, Nat.zero_mul, Nat.add_zero] at hword
  · rename_i hlarge
    obtain ⟨hlow, hhigh⟩ := div_spacing_bounds (Nat.le_of_not_lt hlarge)
    have hlog : units.log2 < 2098 := by
      refine log2_lt_of_lt_pow2 (fun hzero => hlarge ?_) exact.1
      rw [hzero]
      exact pow2_pos 52
    have hfraction : units / spacing units - pow2 52 < pow2 52 := by
      have : pow2 53 = pow2 52 + pow2 52 := rfl
      omega
    have hword := ofBits_fields negative (e := units.log2 - 52 + 1) (by omega) hfraction
    rw [if_neg (Nat.succ_ne_zero _), Nat.add_sub_cancel' hlow, Nat.add_sub_cancel] at hword
    exact hword.trans (congrArg _ (Nat.div_mul_cancel exact.2))

/-! ## Reading back -/

/-- The text of a finite number is a numeral whose value is rounded to this number, whichever its
sign where it is zero. The search ends on digits that read back, and no other finite number has the
text of one that is not zero. -/
theorem text_readsBack (negative : Bool) (units : ℕ) (exact : Representable units) :
    ofBits (finite negative units exact).toBits = finite negative units exact ∧
      (∃ numeral, Numeral.read? (finite negative units exact).text = some numeral ∧
        ∀ x, RoundsTo (Numeral.value numeral) x ↔ x.eq (finite negative units exact)) ∧
      ((finite negative units exact).text = ascii "0" ↔ units = 0) ∧
      (units ≠ 0 → readsBack units (shortest units) ∧
        ∀ x : Number, x.isFinite → x.text = (finite negative units exact).text →
          x = finite negative units exact) := by
  refine ⟨ofBits_toBits negative exact, ?_, ?_, fun hunits => ⟨?_, fun x hx htext => ?_⟩⟩
  · obtain ⟨numeral, hread, hnearest⟩ := exists_read?_text negative exact
    exact ⟨numeral, hread, roundsTo_iff_eq negative exact hnearest⟩
  · rw [text_eq_zero_iff rfl, isZero_finite, beq_iff_eq]
  · exact readsBack_shortest exact (Nat.pos_of_ne_zero hunits)
  · exact text_inj hx rfl (by simpa only [isZero_finite, beq_eq_false_iff_ne] using hunits) htext

/-- The smallest number below zero, where a single digit is enough. -/
theorem smallest_readsBack :
    ∃ exact : Representable 1, (finite true 1 exact).text = ascii "-5e-324" ∧
      readsBack 1 (shortest 1) ∧
      (∃ numeral, Numeral.read? (ascii "-5e-324") = some numeral ∧
        ∀ x, RoundsTo (Numeral.value numeral) x ↔ x.eq (finite true 1 exact)) ∧
      ∀ x : Number, x.isFinite → x.text = ascii "-5e-324" → x = finite true 1 exact := by
  have exact : Representable 1 := by decide +kernel
  have htext : (finite true 1 exact).text = ascii "-5e-324" := by
    rw [text_finite]
    decide +kernel
  obtain ⟨-, hread, -, hnonzero⟩ := text_readsBack true 1 exact
  obtain ⟨hback, hinj⟩ := hnonzero Nat.one_ne_zero
  rw [htext] at hread hinj
  exact ⟨exact, htext, hback, hread, hinj⟩

end Number

end Roar
