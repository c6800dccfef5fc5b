import Mathlib.Data.Nat.Digits.Defs
import Roar.Proofs.Number.ReadsBack

/-!
# How many digits a number is written with

For each count of digits only the decimal nearest to the number is tried. Where the two neighbours of
the number are equally far, that loses nothing: if any decimal of `p` digits is rounded to the
number, then the nearest one is (`Within.of_nearer`). At a power of two the neighbour below is half
as far as the one above, so the nearest decimal, below the number, may be out of reach while the next
one, above it, is not (`Overlong`). This takes 16 digits (`sixteen_le_of_overlong`), and it happens
for 46 powers of two (`overlongExponents`); there, and nowhere else, a number is written with a digit
too many (`text_shortest_iff`).
-/

namespace Roar

open Byte

/-! ## Counting digits -/

namespace Decimal

variable {d : Decimal}

theorem digits_mk (c : ℕ) (e e' : ℤ) : (mk c e).digits = (mk c e').digits := rfl

private theorem length_decimal_le {n p : ℕ} (hp : 0 < p) (h : n < pow10 p) :
    (decimal n).length ≤ p := by
  rw [decimal, List.length_map]
  exact Nat.toDigits_length 10 n p hp h

private theorem digitsValue_lt {digits : Bytes} (hdigits : ∀ c ∈ digits, isDigit c) :
    digitsValue digits < pow10 digits.length := by
  induction digits with
  | nil => exact Nat.zero_lt_one
  | cons c digits ih =>
    obtain ⟨hc, hdigits⟩ := List.forall_mem_cons.mp hdigits
    have hlow := ih hdigits
    have hdigit : digitsValue [c] ≤ 9 := by
      have hone : digitsValue [c] = (c - byte '0').toNat := Nat.zero_add _
      have := toNat_sub_zero_lt hc
      omega
    have hvalue := digitsValue_append [c] digits
    have hle := Nat.mul_le_mul_right (pow10 digits.length) hdigit
    have hpower : pow10 (digits.length + 1) = 10 * pow10 digits.length := by
      rw [pow10_add, Nat.mul_comm]
      rfl
    rw [List.singleton_append] at hvalue
    rw [hvalue, List.length_cons, hpower]
    omega

/-- Zeros at the end are no digits of a decimal. -/
theorem length_digits_le {n p z : ℕ} (hn : 0 < n) (hp : 0 < p) (h : n < pow10 p)
    (hd : d.coefficient = n * pow10 z) : d.digits.length ≤ p := by
  have hstrip : d.digits = (decimal n).rdropWhile (· == byte '0') := by
    have hdigits : d.digits = (decimal d.coefficient).rdropWhile (· == byte '0') := rfl
    rw [hdigits, hd, decimal_mul_pow10 hn, rdropWhile_replicate]
  rw [hstrip]
  exact ((List.rdropWhile_prefix _ _).length_le).trans (length_decimal_le hp h)

/-- One digit too many is a one and zeros. -/
theorem length_digits_le_of_le {q : ℕ} (hq : 0 < q) (hpos : 0 < d.coefficient)
    (h : d.coefficient ≤ pow10 q) : d.digits.length ≤ q := by
  rcases Nat.lt_or_eq_of_le h with hlt | heq
  · exact length_digits_le (z := 0) hpos hq hlt (Nat.mul_one _).symm
  · refine length_digits_le (z := q) Nat.one_pos hq ?_ (heq.trans (Nat.one_mul _).symm)
    exact Nat.one_lt_pow hq.ne' (by decide)

/-- A decimal is as many units in its last place as its digits say. -/
theorem exists_value_eq (d : Decimal) :
    ∃ n < pow10 d.digits.length, ∃ e : ℤ, d.value = n * (10 : ℚ) ^ e := by
  obtain ⟨z, -, hcoefficient⟩ := d.exists_zeros
  refine ⟨digitsValue d.digits, digitsValue_lt isDigit_of_mem_digits, z + d.exponent, ?_⟩
  rw [value, hcoefficient, zpow_add₀ (by norm_num), zpow_natCast]
  push_cast [cast_pow10]
  ring

end Decimal

namespace Number

/-! ## The reach of a number -/

/-- What lies between a number and something in reach below it is in reach too. -/
theorem Within.between {x y : ℚ} {m : ℕ} (h : Within x m) (hxy : x ≤ y) (hym : y ≤ m) : Within y m := by
  have hpos : (0 : ℚ) < spacing m := Nat.cast_pos.mpr (spacing_pos m)
  have hlower := h.lower
  refine ⟨by linarith, by linarith, fun htie => by linarith, fun htie => h.lowerTie ?_⟩
  linarith

/-- What is nearer to a number than something in reach is in reach too, where the reach is the same
on both sides. -/
theorem Within.of_nearer {x y : ℚ} {m : ℕ} (h : Within x m) (hsame : spacing (m - 1) = spacing m)
    (hle : |(m : ℚ) - y| ≤ |(m : ℚ) - x|) : Within y m := by
  have hupper := h.upper
  have hlower := h.lower
  have hupperTie := h.upperTie
  have hlowerTie := h.lowerTie
  rw [hsame] at hlower hlowerTie
  have hreach : 2 * |(m : ℚ) - x| ≤ spacing m := by
    rcases abs_cases ((m : ℚ) - x) with ⟨habs, -⟩ | ⟨habs, -⟩ <;> linarith
  have hedge (heq : 2 * |(m : ℚ) - y| = spacing m) : EndsEven m := by
    have hedge : 2 * |(m : ℚ) - x| = spacing m := by linarith
    rcases abs_cases ((m : ℚ) - x) with ⟨habs, -⟩ | ⟨habs, -⟩
    · exact hlowerTie (by linarith)
    · exact hupperTie (by linarith)
  have hle' := abs_le.mp (show |(m : ℚ) - y| ≤ spacing m / 2 by linarith)
  refine ⟨by linarith, by rw [hsame]; linarith, fun htie => hedge ?_, fun htie => hedge ?_⟩
  · rw [show (m : ℚ) - y = -(spacing m / 2) by linarith, abs_neg, abs_of_nonneg (by positivity)]
    ring
  · rw [hsame] at htie
    rw [show (m : ℚ) - y = spacing m / 2 by linarith, abs_of_nonneg (by positivity)]
    ring

/-! ## The decimals of so many digits -/

theorem cast_one_mul_fives : (one : ℚ) * fives = 10 ^ 1074 := by
  rw [← Nat.cast_mul, one_mul_fives, cast_pow10]

theorem cast_fives_pos : (0 : ℚ) < fives := Nat.cast_pos.mpr fives_pos

theorem cast_fine_div (units : ℕ) : (fine units : ℚ) / fives = units := by
  rw [fine, Nat.cast_mul, mul_div_cancel_right₀ _ cast_fives_pos.ne']

/-- No multiple of `d` is nearer than the rounded quotient. -/
theorem roundDiv_nearest (n k : ℕ) {d : ℕ} (hd : 0 < d) :
    |(n : ℚ) - (roundDiv n d * d : ℕ)| ≤ |(n : ℚ) - (k * d : ℕ)| := by
  obtain ⟨hlow, hhigh, -⟩ := roundDiv_spec n hd
  generalize roundDiv n d = c at hlow hhigh
  rcases lt_trichotomy c k with hlt | rfl | hgt
  · have hnext : c * d + d ≤ k * d := Nat.succ_mul c d ▸ Nat.mul_le_mul_right d hlt
    rw [abs_sub_le_left_iff (by exact_mod_cast (show c * d < k * d by omega))]
    exact_mod_cast (show 2 * n ≤ c * d + k * d by omega)
  · exact le_rfl
  · have hnext : k * d + d ≤ c * d := Nat.succ_mul k d ▸ Nat.mul_le_mul_right d hgt
    rw [abs_sub_le_right_iff (by exact_mod_cast (show k * d < c * d by omega))]
    exact_mod_cast (show k * d + c * d ≤ 2 * n by omega)

theorem abs_sub_nearest_le (units j : ℕ) {t : ℕ} (ht : 0 < t) :
    |(units : ℚ) - (roundDiv (fine units) t * t : ℕ) / fives| ≤ |(units : ℚ) - (j * t : ℕ) / fives| := by
  have hscale (m : ℕ) : |(units : ℚ) - (m : ℚ) / fives| = |(fine units : ℚ) - m| / fives := by
    rw [← cast_fine_div units, ← sub_div, abs_div, abs_of_pos cast_fives_pos]
  rw [hscale, hscale, div_le_div_iff_of_pos_right cast_fives_pos]
  exact roundDiv_nearest _ j ht

section Digits

variable {units p : ℕ} {d : Decimal} (hunits : 0 < units) (hp : 0 < p) (hle : p ≤ 17)
  (hd : d.digits.length ≤ p)

include hunits hp hle hd

/-- A decimal of `p` digits is a multiple of the last place that `p` digits of the number have, or it
is so much smaller than the number that such a multiple lies between the two. -/
theorem multiple_or_smaller :
    (∃ k : ℕ, d.value * one = (k * lastPlace units p : ℕ) / fives) ∨
      ∃ k : ℕ, d.value * one ≤ (k * lastPlace units p : ℕ) / fives ∧
        k * lastPlace units p ≤ fine units := by
  obtain ⟨n, hn, e, hvalue⟩ := d.exists_value_eq
  have hscaled : d.value * one = n * (10 : ℚ) ^ (e + 1074) / fives := by
    rw [eq_div_iff cast_fives_pos.ne', mul_assoc, cast_one_mul_fives, hvalue, mul_assoc,
      zpow_add₀ (by norm_num)]
    rfl
  have hmany := digitCount_fine_ge hunits
  generalize e + 1074 = i at hscaled
  by_cases hcoarse : ((digitCount (fine units) - p : ℕ) : ℤ) ≤ i
  · left
    obtain ⟨z, hz⟩ := Int.eq_ofNat_of_zero_le (Int.sub_nonneg.mpr hcoarse)
    refine ⟨n * pow10 z, ?_⟩
    rw [hscaled, show i = z + (digitCount (fine units) - p : ℕ) by omega,
      zpow_add₀ (by norm_num), zpow_natCast, zpow_natCast, lastPlace, Nat.cast_mul, Nat.cast_mul,
      cast_pow10, cast_pow10, mul_assoc]
  · right
    refine ⟨pow10 (p - 1), ?_, pow10_mul_lastPlace_le hunits hp hle⟩
    have hdigits : (n : ℚ) ≤ 10 ^ p := by
      rw [← cast_pow10]
      exact_mod_cast hn.le.trans (pow10_le_pow10 hd)
    rw [hscaled, div_le_div_iff_of_pos_right cast_fives_pos, lastPlace, ← pow10_add, cast_pow10]
    calc (n : ℚ) * 10 ^ i
        ≤ 10 ^ p * 10 ^ i := mul_le_mul_of_nonneg_right hdigits (zpow_nonneg (by norm_num) i)
      _ = 10 ^ (p + i) := by rw [zpow_add₀ (by norm_num), zpow_natCast]
      _ ≤ 10 ^ ((p - 1 + (digitCount (fine units) - p) : ℕ) : ℤ) :=
        zpow_le_zpow_right₀ (by norm_num) (by omega)
      _ = 10 ^ (p - 1 + (digitCount (fine units) - p)) := zpow_natCast ..

/-- A decimal of `p` digits in reach of the number has a multiple of the last place beside it. -/
theorem exists_multiple_within (h : Within (d.value * one) units) :
    ∃ k : ℕ, Within ((k * lastPlace units p : ℕ) / fives) units := by
  rcases multiple_or_smaller hunits hp hle hd with ⟨k, hk⟩ | ⟨k, hk, hbelow⟩
  · exact ⟨k, hk ▸ h⟩
  · refine ⟨k, h.between hk ?_⟩
    rw [← cast_fine_div units, div_le_div_iff_of_pos_right cast_fives_pos]
    exact_mod_cast hbelow

end Digits

/-! ## The search -/

/-- The search ends at the first count of digits that reads back, or at the last count. -/
theorem exists_first (units n p : ℕ) :
    ∃ q, p ≤ q ∧ q ≤ p + n ∧ shortestFrom units n p = Decimal.nearest units q ∧
      ∀ r, p ≤ r → r < q → ¬ readsBack units (Decimal.nearest units r) := by
  induction n generalizing p with
  | zero => exact ⟨p, le_rfl, le_rfl, rfl, fun r hr hlt => by omega⟩
  | succ n ih =>
    unfold shortestFrom
    simp only
    split
    · exact ⟨p, le_rfl, by omega, rfl, fun r hr hlt => by omega⟩
    · rename_i hfails
      obtain ⟨q, hlow, hhigh, heq, hbefore⟩ := ih (p + 1)
      refine ⟨q, by omega, by omega, heq, fun r hr hlt => ?_⟩
      rcases Nat.eq_or_lt_of_le hr with rfl | hgt
      · exact hfails
      · exact hbefore r hgt hlt

/-- No more digits are written than were asked for. -/
theorem length_digits_nearest {units q : ℕ} (hunits : 0 < units) (hq : 0 < q) (hle : q ≤ 17) :
    (Decimal.nearest units q).digits.length ≤ q := by
  have hpos : 0 < (Decimal.nearest units q).coefficient := coefficient_nearest_pos hunits hq
  have hround : roundDiv (fine units) (lastPlace units q) ≤ pow10 q := by
    obtain ⟨-, hhigh, -⟩ := roundDiv_spec (fine units) (lastPlace_pos units q)
    have hlt := fine_lt_pow10_mul hunits hle
    generalize roundDiv (fine units) (lastPlace units q) = c at hhigh
    by_contra hgt
    have hnext : pow10 q * lastPlace units q + lastPlace units q ≤ c * lastPlace units q :=
      Nat.succ_mul (pow10 q) _ ▸ Nat.mul_le_mul_right _ (Nat.lt_of_not_le hgt)
    omega
  rw [nearest_eq] at hpos ⊢
  exact Decimal.length_digits_le_of_le hq hpos hround

/-! ## Powers of two -/

theorem spacing_pred_eq {units : ℕ} (hunits : 0 < units)
    (h : ∀ k, 53 ≤ k → units ≠ pow2 k) : spacing (units - 1) = spacing units := by
  have hself : pow2 units.log2 ≤ units := Nat.log2_self_le hunits.ne'
  have hmono := log2_mono (Nat.sub_le units 1)
  unfold spacing
  congr 1
  rcases Nat.lt_or_ge units.log2 53 with hsmall | hlarge
  · omega
  · -- the number below has the same leading bit
    have hlt : pow2 units.log2 ≤ units - 1 := by
      have := h units.log2 hlarge
      omega
    have hne : units - 1 ≠ 0 := by
      have := pow2_pos units.log2
      omega
    have := (Nat.le_log2 hne).mpr hlt
    omega

theorem representable_pow2 {k : ℕ} (hlt : k < 2098) : Representable (pow2 k) := by
  have hlog : (pow2 k).log2 = k := Nat.log2_two_pow
  refine ⟨pow2_lt_pow2 hlt, ?_⟩
  rw [hlog]
  exact pow2_dvd_pow2 (Nat.sub_le k 52)

section Power

variable {k : ℕ} (hk : 53 ≤ k)

include hk

theorem spacing_pow2_pred : spacing (pow2 k - 1) = pow2 (k - 53) := by
  have hlow : pow2 (k - 1) ≤ pow2 k - 1 := by
    have hdouble : pow2 k = pow2 (k - 1) * 2 := by
      rw [show k = k - 1 + 1 by omega, pow2_add]
      rfl
    have := pow2_pos (k - 1)
    omega
  have hne : pow2 k - 1 ≠ 0 := by
    have := pow2_pos (k - 1)
    omega
  have hlog : (pow2 k - 1).log2 = k - 1 := by
    have := (Nat.le_log2 hne).mpr hlow
    have := log2_lt_of_lt_pow2 hne (Nat.sub_lt (pow2_pos k) Nat.one_pos)
    omega
  rw [spacing, hlog, Nat.sub_sub]

theorem spacing_pow2 : spacing (pow2 k) = 2 * spacing (pow2 k - 1) := by
  have hlog : (pow2 k).log2 = k := Nat.log2_two_pow
  rw [spacing_pow2_pred hk, spacing, hlog, show k - 52 = 1 + (k - 53) by omega, pow2_add]
  rfl

private theorem pow2_eq_mul_spacing : pow2 k = pow2 53 * spacing (pow2 k - 1) := by
  rw [spacing_pow2_pred hk, ← pow2_add, Nat.add_sub_cancel' hk]

theorem endsEven_pow2 : EndsEven (pow2 k) := by
  have hsplit : pow2 k = pow2 52 * spacing (pow2 k) := by
    rw [spacing_pow2 hk, ← Nat.mul_assoc]
    exact pow2_eq_mul_spacing hk
  rw [EndsEven, Nat.div_eq_of_eq_mul_left (spacing_pos _) hsplit]
  rfl

end Power

/-- The multiple of `t` that is nearest to `n` is no farther from it than `h / 2` below and `h`
above. -/
def Reaches (n h t : ℕ) : Prop :=
  2 * (roundDiv n t * t) ≤ 2 * n + 2 * h ∧ 2 * n ≤ 2 * (roundDiv n t * t) + h

/-- The multiple of `t` below `n` is the nearest one but farther away than `h / 2`, and the next one,
above `n`, is no farther away than `h`. -/
def Overlong (n h t : ℕ) : Prop := h < 2 * (n % t) ∧ t ≤ n % t + h ∧ 2 * (n % t) ≤ t

instance (n h t : ℕ) : Decidable (Reaches n h t) := inferInstanceAs (Decidable (_ ∧ _))

instance (n h t : ℕ) : Decidable (Overlong n h t) := inferInstanceAs (Decidable (_ ∧ _ ∧ _))

/-- Where some multiple is in reach, but not the nearest one, it is the next one. -/
theorem overlong_of_multiple {n h t : ℕ} (j : ℕ) (ht : 0 < t) (hupper : 2 * (j * t) ≤ 2 * n + 2 * h)
    (hlower : 2 * n ≤ 2 * (j * t) + h) (hfails : ¬ Reaches n h t) : Overlong n h t := by
  obtain ⟨hlow, hhigh, -⟩ := roundDiv_spec n ht
  unfold Reaches at hfails
  generalize roundDiv n t = c at hlow hhigh hfails
  rcases lt_trichotomy c j with hlt | rfl | hgt
  · have hnext : c * t + t ≤ j * t := Nat.succ_mul c t ▸ Nat.mul_le_mul_right t hlt
    have hmod : n % t = n - c * t :=
      ((Nat.div_mod_unique ht).mpr ⟨by rw [Nat.mul_comm t c]; omega, by omega⟩).2
    rw [Overlong, hmod]
    omega
  · exact absurd ⟨hupper, hlower⟩ hfails
  · -- a multiple below the nearest one is no nearer
    have hnext : j * t + t ≤ c * t := Nat.succ_mul j t ▸ Nat.mul_le_mul_right t hgt
    exact absurd ⟨by omega, by omega⟩ hfails

/-- The distance from a power of two to the number below it, in `10 ^ -1074`. -/
def reach (k : ℕ) : ℕ := pow2 (k - 53) * fives

section Power

variable {k p : ℕ} (hk : 53 ≤ k) (hle : p ≤ 17)

include hk

/-- The reach of a power of two is twice as far above it as below it. -/
theorem within_pow2 {x : ℚ} :
    Within x (pow2 k) ↔ 2 * x ≤ 2 * (pow2 k : ℕ) + 2 * (spacing (pow2 k - 1) : ℕ) ∧
      2 * (pow2 k : ℕ) ≤ 2 * x + (spacing (pow2 k - 1) : ℕ) := by
  have hcast : ((spacing (pow2 k) : ℕ) : ℚ) = 2 * (spacing (pow2 k - 1) : ℕ) := by
    rw [spacing_pow2 hk]
    push_cast
    rfl
  have heven := endsEven_pow2 hk
  constructor
  · intro h
    exact ⟨hcast ▸ h.upper, h.lower⟩
  · rintro ⟨hupper, hlower⟩
    exact ⟨hcast ▸ hupper, hlower, fun _ => heven, fun _ => heven⟩

/-- Multiples of a fraction of a unit that are in the reach of a power of two. -/
theorem within_pow2_div {m : ℕ} :
    Within ((m : ℚ) / fives) (pow2 k) ↔ 2 * m ≤ 2 * fine (pow2 k) + 2 * reach k ∧
      2 * fine (pow2 k) ≤ 2 * m + reach k := by
  have hpos := cast_fives_pos
  have hreach : ((spacing (pow2 k - 1) : ℕ) : ℚ) = (reach k : ℚ) / fives := by
    rw [spacing_pow2_pred hk, reach, Nat.cast_mul, mul_div_cancel_right₀ _ hpos.ne']
  rw [within_pow2 hk, hreach, ← cast_fine_div (pow2 k), ← mul_div_assoc, ← mul_div_assoc,
    ← mul_div_assoc, ← add_div, ← add_div, div_le_div_iff_of_pos_right hpos,
    div_le_div_iff_of_pos_right hpos]
  exact_mod_cast Iff.rfl

theorem readsBack_nearest_iff (hlt : k < 2098) :
    readsBack (pow2 k) (Decimal.nearest (pow2 k) p) ↔
      Reaches (fine (pow2 k)) (reach k) (lastPlace (pow2 k) p) := by
  rw [readsBack_iff (representable_pow2 hlt), nearest_eq, value_multiple,
    nearest_iff_within (by positivity),
    within_pow2_div hk]
  exact and_iff_right (representable_pow2 hlt).2

include hle

/-- The decimal tried is out of reach, while another one of as many digits is not. -/
theorem overlong_of_within (hlt : k < 2098) (hp : 0 < p) {d : Decimal} (hd : d.digits.length ≤ p)
    (hwithin : Within (d.value * one) (pow2 k))
    (hfails : ¬ readsBack (pow2 k) (Decimal.nearest (pow2 k) p)) :
    Overlong (fine (pow2 k)) (reach k) (lastPlace (pow2 k) p) := by
  obtain ⟨j, hj⟩ := exists_multiple_within (pow2_pos k) hp hle hd hwithin
  obtain ⟨hupper, hlower⟩ := (within_pow2_div hk).mp hj
  rw [readsBack_nearest_iff hk hlt] at hfails
  exact overlong_of_multiple j (lastPlace_pos _ _) hupper hlower hfails

/-- Sixteen digits are the fewest for which this can happen. -/
theorem sixteen_le_of_overlong
    (h : Overlong (fine (pow2 k)) (reach k) (lastPlace (pow2 k) p)) : 16 ≤ p := by
  obtain ⟨-, hreach, hhalf⟩ := h
  have hlt := fine_lt_pow10_mul (pow2_pos k) hle
  have hfine : fine (pow2 k) = pow2 52 * (2 * reach k) := by
    have hsplit : pow2 k = pow2 52 * 2 * pow2 (k - 53) := by
      rw [show k = 53 + (k - 53) by omega, pow2_add, Nat.add_sub_cancel_left]
      rfl
    rw [fine, hsplit, reach]
    ring
  by_contra hfew
  have hpower : pow10 p ≤ pow2 52 :=
    (pow10_le_pow10 (show p ≤ 15 by omega)).trans (by decide)
  have hmul := Nat.mul_le_mul_right (lastPlace (pow2 k) p) hpower
  have hle := Nat.mul_le_mul_left (pow2 52)
    (show lastPlace (pow2 k) p ≤ 2 * reach k by omega)
  omega

end Power

/-! ## The exceptions -/

/-- The powers of two, as exponents of units, that are written with 17 digits where 16 would do. -/
def overlongExponents : List ℕ :=
  [57, 67, 117, 153, 266, 283, 286, 296, 369, 379, 412, 422, 525, 565, 578, 585, 691, 708, 778, 934,
    977, 997, 1030, 1050, 1163, 1196, 1206, 1246, 1256, 1349, 1379, 1419, 1452, 1472, 1479, 1555, 1608,
    1618, 1628, 1648, 1668, 1784, 1877, 1937, 1970, 2050]

theorem digitCount_eq {n q : ℕ} (hlow : pow10 (q - 1) ≤ n) (hhigh : n < pow10 q) : digitCount n = q := by
  have hpos : 0 < n := (pow10_pos _).trans_le hlow
  have hlow' := pow10_digitCount_le hpos
  have hhigh' := lt_pow10_digitCount n
  have hlt : q - 1 < digitCount n := (Nat.pow_lt_pow_iff_right (by decide)).mp (hlow.trans_lt hhigh')
  have hlt' : digitCount n - 1 < q := (Nat.pow_lt_pow_iff_right (by decide)).mp (hlow'.trans_lt hhigh)
  have hq : q ≠ 0 := by
    rintro rfl
    exact absurd (hlow.trans_lt hhigh) (lt_irrefl _)
  omega

/-- The digits of a power of two in `10 ^ -1074`, of which 751 are those of a unit, counted in two
steps at most. -/
def quickCount (k : ℕ) : ℕ := digitCountFrom (fine (pow2 k)) 2 (751 + k * 1233 / 4096)

/-- The power of two has `q` digits in `10 ^ -1074`, and if the nearest decimal of 16 digits is out
of reach while the next is not, then one of 15 digits is in reach, or the power is among the
exceptions. -/
def Settled (k n q : ℕ) : Prop :=
  pow10 (q - 1) ≤ n ∧ n < pow10 q ∧
    (Overlong n (reach k) (pow10 (q - 16)) →
      Reaches n (reach k) (pow10 (q - 15)) ∨ k ∈ overlongExponents)

instance (k n q : ℕ) : Decidable (Settled k n q) := inferInstanceAs (Decidable (_ ∧ _ ∧ _))

theorem settled {k : ℕ} (hk : 53 ≤ k) (hlt : k < 2098) : Settled k (fine (pow2 k)) (quickCount k) := by
  have hall : ∀ i < 42, ∀ j < 50, 53 ≤ 50 * i + j →
      Settled (50 * i + j) (fine (pow2 (50 * i + j))) (quickCount (50 * i + j)) := by
    decide +kernel
  have hblock := hall (k / 50) (by omega) (k % 50) (Nat.mod_lt k (by decide))
  rw [Nat.div_add_mod k 50] at hblock
  exact hblock hk

theorem lastPlace_pow2 {k : ℕ} (hk : 53 ≤ k) (hlt : k < 2098) (p : ℕ) :
    lastPlace (pow2 k) p = pow10 (quickCount k - p) := by
  obtain ⟨hlow, hhigh, -⟩ := settled hk hlt
  rw [lastPlace, digitCount_eq hlow hhigh]

/-- A decimal without digits is zero. -/
theorem digits_pos_of_nearest {units : ℕ} (hunits : 0 < units) {d : Decimal}
    (h : Nearest (d.value * one) units) : 0 < d.digits.length := by
  obtain ⟨n, hn, e, hvalue⟩ := d.exists_value_eq
  by_contra hnone
  obtain rfl : n = 0 := by
    rw [show d.digits.length = 0 by omega] at hn
    exact Nat.lt_one_iff.mp hn
  rw [hvalue, Nat.cast_zero, zero_mul, zero_mul] at h
  exact hunits.ne' (Int.ofNat.inj (h.unique nearest_zero))

private theorem lt_of_pow2_lt_pow2 {k l : ℕ} (h : pow2 k < pow2 l) : k < l :=
  (Nat.pow_lt_pow_iff_right (by decide)).mp h

/-- A decimal with fewer digits than the one found is rounded to a number only where the number is
one of the exceptions. -/
theorem mem_of_fewer_digits {units : ℕ} (exact : Representable units) (hunits : 0 < units) {d : Decimal}
    (hfewer : d.digits.length < (shortest units).digits.length)
    (hnearest : Nearest (d.value * one) units) : units ∈ overlongExponents.map pow2 := by
  obtain ⟨q, hlow, hhigh, heq, hbefore⟩ := exists_first units 16 1
  have hlength := length_digits_nearest hunits hlow hhigh
  rw [shortest, heq] at hfewer
  have hp : 0 < q - 1 := by
    have := digits_pos_of_nearest hunits hnearest
    omega
  have hd : d.digits.length ≤ q - 1 := by omega
  have hfails := hbefore (q - 1) hp (by omega)
  have hwithin := ((nearest_iff_within (mul_nonneg d.value_nonneg (Nat.cast_nonneg _))).mp hnearest).2
  by_cases hpower : ∃ k, 53 ≤ k ∧ units = pow2 k
  · obtain ⟨k, hk, rfl⟩ := hpower
    have hlt : k < 2098 := lt_of_pow2_lt_pow2 exact.1
    have hoverlong := overlong_of_within hk (by omega) hlt hp hd hwithin hfails
    have hsixteen := sixteen_le_of_overlong hk (by omega) hoverlong
    obtain rfl : q = 17 := by omega
    have hfifteen := hbefore 15 (by decide) (by decide)
    rw [readsBack_nearest_iff hk hlt, lastPlace_pow2 hk hlt] at hfifteen
    rw [lastPlace_pow2 hk hlt] at hoverlong
    exact List.mem_map_of_mem (((settled hk hlt).2.2 hoverlong).resolve_left hfifteen)
  · -- the reach is the same above and below
    have hsame := spacing_pred_eq hunits fun k hk heq => hpower ⟨k, hk, heq⟩
    obtain ⟨j, hj⟩ := exists_multiple_within hunits hp (by omega) hd hwithin
    rw [readsBack_iff exact, nearest_eq, value_multiple, nearest_iff_within (by positivity)] at hfails
    have hnearer := abs_sub_nearest_le units j (lastPlace_pos units (q - 1))
    exact absurd ⟨exact.2, hj.of_nearer hsame hnearer⟩ hfails

/-- The power of two has a decimal of 16 digits in reach, but none of 1 to 16 digits is that is
tried, and 17 digits are all written. -/
def Excepted (k n q : ℕ) : Prop :=
  Overlong n (reach k) (pow10 (q - 16)) ∧ (∀ p < 17, 0 < p → ¬ Reaches n (reach k) (pow10 (q - p))) ∧
    (Decimal.mk (roundDiv n (pow10 (q - 17))) 0).digits.length = 17

instance (k n q : ℕ) : Decidable (Excepted k n q) := inferInstanceAs (Decidable (_ ∧ _ ∧ _))

theorem excepted : ∀ k ∈ overlongExponents,
    53 ≤ k ∧ k < 2098 ∧ Excepted k (fine (pow2 k)) (quickCount k) := by
  decide +kernel

/-- An exception is written with 17 digits, though 16 would do. -/
theorem exists_fewer_digits {k : ℕ} (h : k ∈ overlongExponents) :
    (shortest (pow2 k)).digits.length = 17 ∧
      ∃ d : Decimal, d.digits.length ≤ 16 ∧ Nearest (d.value * one) (pow2 k : ℕ) := by
  obtain ⟨hk, hlt, hoverlong, hfails, hlength⟩ := excepted k h
  rw [← lastPlace_pow2 hk hlt] at hoverlong hlength
  have hunits := pow2_pos k
  constructor
  · obtain ⟨q, hlow, hhigh, heq, -⟩ := exists_first (pow2 k) 16 1
    have hreads := readsBack_shortest (representable_pow2 hlt) hunits
    rw [shortest, heq, readsBack_nearest_iff hk hlt, lastPlace_pow2 hk hlt] at hreads
    obtain rfl : q = 17 := by
      by_contra hne
      exact hfails q (by omega) hlow hreads
    rw [shortest, heq, nearest_eq, multiple, Decimal.digits_mk _ _ 0]
    exact hlength
  · -- the next multiple of the last place
    obtain ⟨-, hreach, -⟩ := hoverlong
    have hdigits := fine_lt_pow10_mul (p := 16) hunits (by decide)
    have ht := lastPlace_pos (pow2 k) 16
    have hsplit := Nat.div_add_mod (fine (pow2 k)) (lastPlace (pow2 k) 16)
    have hmod := Nat.mod_lt (fine (pow2 k)) ht
    refine ⟨multiple (pow2 k) 16 (fine (pow2 k) / lastPlace (pow2 k) 16 + 1), ?_, ?_⟩
    · exact Decimal.length_digits_le_of_le (by decide) (Nat.succ_pos _)
        ((Nat.div_lt_iff_lt_mul ht).mpr hdigits)
    · have hnext : (fine (pow2 k) / lastPlace (pow2 k) 16 + 1) * lastPlace (pow2 k) 16 =
          lastPlace (pow2 k) 16 * (fine (pow2 k) / lastPlace (pow2 k) 16) + lastPlace (pow2 k) 16 := by
        rw [Nat.add_one_mul, Nat.mul_comm]
      rw [value_multiple, nearest_iff_within (by positivity), within_pow2_div hk, hnext]
      exact ⟨(representable_pow2 hlt).2, by omega, by omega⟩

/-! ## Numerals with fewer digits -/

/-- A numeral that is rounded to a number other than zero has the sign of the number, and without it
is rounded to the magnitude. -/
theorem nearest_of_roundsTo {negative : Bool} {units : ℕ} {exact : Representable units}
    (hunits : units ≠ 0) {numeral : Bool × Decimal}
    (h : RoundsTo (Numeral.value numeral) (finite negative units exact)) :
    Nearest (numeral.2.value * one) units := by
  obtain ⟨s, m, hnearest, hfinite⟩ := h
  obtain ⟨rfl, rfl⟩ : negative = s ∧ units = m := by
    unfold ofUnits at hfinite
    split at hfinite
    · exact ⟨(Number.finite.inj hfinite).1, (Number.finite.inj hfinite).2⟩
    · cases hfinite
  obtain ⟨t, d⟩ := numeral
  have hvalue : 0 ≤ d.value * one := mul_nonneg d.value_nonneg (Nat.cast_nonneg _)
  -- zero is nearer to a value of the other sign
  have hsign (x : ℚ) (hx : 0 ≤ x) : ¬ Nearest (-x) units := fun hnearest => by
    have hpos : (0 : ℚ) < units := Nat.cast_pos.mpr (Nat.pos_of_ne_zero hunits)
    have hzero := hnearest.least 0 significant_zero
    rw [Int.cast_natCast, Int.cast_zero, sub_zero, abs_neg, abs_of_nonneg hx,
      abs_of_nonpos (by linarith)] at hzero
    linarith
  cases t with
  | true =>
    have hnegated : Numeral.value (true, d) * one = -(d.value * one) := neg_mul ..
    rw [hnegated] at hnearest
    cases negative with
    | true =>
      have := hnearest.neg
      rwa [neg_neg, signed, if_pos rfl, neg_neg] at this
    | false => exact absurd hnearest (hsign _ hvalue)
  | false =>
    cases negative with
    | true =>
      have := hnearest.neg
      rw [signed, if_pos rfl, neg_neg] at this
      exact absurd this (hsign _ hvalue)
    | false => exact hnearest

/-- A number that is not zero is written with as few digits as possible: no numeral with fewer
significant digits is rounded to it, unless it is one of 46 powers of two. Those are written with 17
digits, where 16 would do. -/
theorem text_shortest_iff (negative : Bool) (units : ℕ) (exact : Representable units)
    (hunits : units ≠ 0) :
    ∃ d, Numeral.read? (finite negative units exact).text = some (negative, d) ∧
      ((∀ numeral, RoundsTo (Numeral.value numeral) (finite negative units exact) →
          d.digits.length ≤ numeral.2.digits.length) ↔ units ∉ overlongExponents.map pow2) ∧
      (units ∈ overlongExponents.map pow2 → d.digits.length = 17 ∧
        ∃ numeral, numeral.2.digits.length ≤ 16 ∧
          RoundsTo (Numeral.value numeral) (finite negative units exact)) := by
  obtain ⟨d, hread, -, hdigits⟩ := Numeral.read?_text negative exact hunits
  have hexception (hmem : units ∈ overlongExponents.map pow2) : d.digits.length = 17 ∧
      ∃ numeral, numeral.2.digits.length ≤ 16 ∧
        RoundsTo (Numeral.value numeral) (finite negative units exact) := by
    obtain ⟨k, hk, rfl⟩ := List.mem_map.mp hmem
    obtain ⟨hlength, e, hfewer, hnearest⟩ := exists_fewer_digits hk
    have hrounds : RoundsTo (Numeral.value (negative, e)) (finite negative (pow2 k) exact) := by
      refine (roundsTo_iff_eq negative exact ?_ _).mpr (decide_eq_true rfl)
      rw [value_mul_one]
      exact nearest_signed negative hnearest
    rw [hdigits]
    exact ⟨hlength, (negative, e), hfewer, hrounds⟩
  refine ⟨d, hread, ⟨fun hleast hmem => ?_, fun hnotMem numeral hrounds => ?_⟩, hexception⟩
  · obtain ⟨hlength, numeral, hfewer, hrounds⟩ := hexception hmem
    have := hleast numeral hrounds
    omega
  · by_contra hmore
    refine hnotMem (mem_of_fewer_digits exact (Nat.pos_of_ne_zero hunits) ?_
      (nearest_of_roundsTo hunits hrounds))
    rw [← hdigits]
    omega

/-- A power of two for which the decimal of 16 digits tried would be out of reach, but 15 digits are
enough. -/
theorem power_text_shortest :
    pow2 429 ∉ overlongExponents.map pow2 ∧
      ∃ exact : Representable (pow2 429),
        (finite true (pow2 429) exact).text = ascii "-6.84940421565126e-195" ∧
          ∀ numeral, RoundsTo (Numeral.value numeral) (finite true (pow2 429) exact) →
            15 ≤ numeral.2.digits.length := by
  have hnotMem : pow2 429 ∉ overlongExponents.map pow2 := by decide +kernel
  have exact : Representable (pow2 429) := representable_pow2 (by decide)
  have htext : (finite true (pow2 429) exact).text = ascii "-6.84940421565126e-195" := by
    rw [text_finite]
    decide +kernel
  obtain ⟨d, hread, hiff, -⟩ := text_shortest_iff true (pow2 429) exact (pow2_pos 429).ne'
  have hdigits : d.digits.length = 15 := by
    have hvalue : Numeral.read? (ascii "-6.84940421565126e-195") =
        some (true, ⟨684940421565126, -209⟩) := by decide +kernel
    rw [htext, hvalue] at hread
    cases hread
    decide +kernel
  exact ⟨hnotMem, exact, htext, hdigits ▸ hiff.mpr hnotMem⟩

/-- The number `2 ^ -44` is written with 17 digits, while one of 16 digits is rounded to it. -/
theorem power_text_overlong :
    ∃ exact : Representable (pow2 1030),
      (finite false (pow2 1030) exact).text = ascii "5.6843418860808015e-14" ∧
        Numeral.read? (ascii "5.6843418860808015e-14") = some (false, ⟨56843418860808015, -30⟩) ∧
        (Decimal.mk 56843418860808015 (-30)).digits.length = 17 ∧
        (Decimal.mk 5684341886080802 (-29)).digits.length = 16 ∧
        RoundsTo (Numeral.value (false, ⟨5684341886080802, -29⟩)) (finite false (pow2 1030) exact) := by
  have exact : Representable (pow2 1030) := representable_pow2 (by decide)
  have hrounds : ofDecimal ⟨5684341886080802, -29⟩ = ofUnits false (pow2 1030) := by decide +kernel
  have hfinite : ofUnits false (pow2 1030) = finite false (pow2 1030) exact := dif_pos exact
  refine ⟨exact, ?_, by decide +kernel, by decide +kernel, by decide +kernel, ?_⟩
  · rw [text_finite]
    decide +kernel
  · rw [← hfinite, ← hrounds]
    exact roundsTo_ofDecimal _

end Number

end Roar
