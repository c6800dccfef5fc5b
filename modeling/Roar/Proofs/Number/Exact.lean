import Mathlib.Data.Rat.Floor
import Mathlib.Tactic.FieldSimp
import Mathlib.Tactic.Linarith
import Mathlib.Tactic.LinearCombination
import Mathlib.Tactic.Ring
import Roar.Number.Arithmetic

/-!
# Exact arithmetic

The rational value of a finite number is its units over those of one (`Number.toRat?`). An operation
whose exact result is a double gives that double: nothing is rounded (`add_exact`, `sub_exact`,
`mul_exact`, `div_exact`, `rem_exact`).
-/

namespace Roar

namespace Number

/-- The rational value of a finite number. -/
def toRat? : Number → Option ℚ
  | .finite negative units _ => some ((signed negative units : ℚ) / (one : ℚ))
  | _ => none

/-- A rational that is the value of a number. -/
def IsDouble (q : ℚ) : Prop := ∃ x : Number, x.toRat? = some q

theorem one_pos : 0 < one := pow2_pos 1074

theorem one_ne_zero : (one : ℚ) ≠ 0 := Nat.cast_ne_zero.mpr one_pos.ne'

theorem exists_of_toRat? {x : Number} {q : ℚ} (h : x.toRat? = some q) :
    ∃ s m hm, x = .finite s m hm ∧ q = (signed s m : ℚ) / (one : ℚ) := by
  cases x with
  | nan => cases h
  | infinity => cases h
  | finite s m hm => exact ⟨s, m, hm, rfl, (Option.some.inj h).symm⟩

theorem signed_zero (s : Bool) : signed s 0 = 0 := by cases s <;> rfl

theorem toRat?_zero (s : Bool) : (zero s).toRat? = some 0 := by
  rw [zero, toRat?, signed_zero, Int.cast_zero, zero_div]

/-- A number that is equal to a finite one has its value. -/
theorem toRat?_of_eq {x y : Number} {q : ℚ} (h : x.eq y = true) (hy : y.toRat? = some q) :
    x.toRat? = some q := by
  obtain ⟨t, n, hn, rfl, rfl⟩ := exists_of_toRat? hy
  cases x with
  | nan => simp [Number.eq, relate, rank] at h
  | infinity s =>
    simp only [Number.eq, relate, rank, decide_eq_true_eq] at h
    have hlt := hn.1
    unfold signed at h
    split at h <;> split at h <;> omega
  | finite s m hm =>
    simp only [Number.eq, relate, rank, decide_eq_true_eq] at h
    rw [toRat?, h]

theorem toRat?_of_isZero {x : Number} (h : x.isZero = true) : x.toRat? = some 0 :=
  toRat?_of_eq h (toRat?_zero false)

/-! ## Signs -/

/-- The sign as a factor. -/
def unitOf (negative : Bool) : ℤ := if negative then -1 else 1

theorem signed_eq (s : Bool) (m : ℕ) : signed s m = unitOf s * m := by
  cases s <;> simp [signed, unitOf]

theorem unitOf_mul_self (s : Bool) : unitOf s * unitOf s = 1 := by cases s <;> rfl

theorem unitOf_bne (s t : Bool) : unitOf (s != t) = unitOf s * unitOf t := by
  cases s <;> cases t <;> rfl

@[simp] theorem natAbs_signed (s : Bool) (m : ℕ) : (signed s m).natAbs = m := by
  cases s <;> simp [signed]

theorem signed_lt_zero (z : ℤ) : signed (decide (z < 0)) z.natAbs = z := by
  by_cases h : z < 0
  · simp only [h, decide_true, signed, if_true]
    omega
  · simp only [h, decide_false, signed, Bool.false_eq_true, if_false]
    omega

/-! ## Rounding what needs none -/

private theorem roundDiv_mul (q d : ℕ) (hd : 0 < d) : roundDiv (q * d) d = q := by
  unfold roundDiv
  simp [hd]

/-- A whole number of units that is a double is not rounded. -/
theorem round_exact (s : Bool) {num den n : ℕ} (hden : 0 < den) (hnum : num = n * den)
    (hn : Representable n) : round s num den = .finite s n hn := by
  subst hnum
  obtain ⟨q, hq⟩ := hn.2
  have hdiv : n * den / den = n := Nat.mul_div_cancel n hden
  have hd : roundDiv (n * den) (den * pow2 (n.log2 - 52)) = q := by
    have hm : n * den = q * (den * pow2 (n.log2 - 52)) := by
      calc n * den = pow2 (n.log2 - 52) * q * den := by rw [← hq]
        _ = q * (den * pow2 (n.log2 - 52)) := by ring
    rw [hm]
    exact roundDiv_mul q _ (Nat.mul_pos hden (pow2_pos _))
  have hu : q * pow2 (n.log2 - 52) = n := by rw [Nat.mul_comm]; exact hq.symm
  simp only [round, hdiv, hd, hu, ofUnits, dif_pos hn]

/-- A quotient of signed units that is a double in value is a whole number of units. -/
theorem representable_of_isDouble {q : ℚ} (h : IsDouble q) :
    ∃ s n, Representable n ∧ q = (signed s n : ℚ) / (one : ℚ) := by
  obtain ⟨x, hx⟩ := h
  obtain ⟨s, n, hn, -, hq⟩ := exists_of_toRat? hx
  exact ⟨s, n, hn, hq⟩

/-! ## Operations -/

theorem toRat?_finite (s : Bool) {m : ℕ} (hm : Representable m) :
    (Number.finite s m hm).toRat? = some ((unitOf s * m : ℤ) / (one : ℚ)) := by
  rw [← signed_eq]
  rfl

theorem natAbs_unitOf_mul (s : Bool) (m : ℕ) : (unitOf s * m).natAbs = m := by
  rw [← signed_eq, natAbs_signed]

/-- A quotient of units that is a double in value is not rounded. -/
theorem toRat?_round {s : Bool} {num den : ℕ} {q : ℚ} (hden : 0 < den)
    (hq : q = ((unitOf s * num : ℤ) : ℚ) / (den * one : ℚ)) (h : IsDouble q) :
    (round s num den).toRat? = some q := by
  obtain ⟨t, n, hn, hq'⟩ := representable_of_isDouble h
  have hd : (den : ℚ) ≠ 0 := Nat.cast_ne_zero.mpr hden.ne'
  have he : unitOf s * num = signed t n * den := by
    have h1 : (((unitOf s * num : ℤ) : ℚ)) = ((signed t n : ℤ) : ℚ) * den := by
      have h2 := hq.symm.trans hq'
      rw [div_eq_div_iff (mul_ne_zero hd one_ne_zero) one_ne_zero] at h2
      apply mul_right_cancel₀ one_ne_zero
      rw [h2]
      ring
    exact_mod_cast h1
  have hnum : num = n * den := by
    have h1 := congrArg Int.natAbs he
    rwa [natAbs_unitOf_mul, Int.natAbs_mul, natAbs_signed, Int.natAbs_natCast] at h1
  have hst : unitOf s * n = signed t n := by
    have hz : (den : ℤ) ≠ 0 := Int.natCast_ne_zero.mpr hden.ne'
    apply mul_right_cancel₀ hz
    rw [← he, hnum]
    push_cast
    ring
  rw [round_exact s hden hnum hn, toRat?_finite, hst, hq']

theorem add_exact {x y : Number} {a b : ℚ} (hx : x.toRat? = some a) (hy : y.toRat? = some b)
    (h : IsDouble (a + b)) : (x.add y).toRat? = some (a + b) := by
  obtain ⟨s, m, hm, rfl, rfl⟩ := exists_of_toRat? hx
  obtain ⟨t, n, hn, rfl, rfl⟩ := exists_of_toRat? hy
  have hsum : (signed s m : ℚ) / (one : ℚ) + (signed t n : ℚ) / (one : ℚ) =
      ((signed s m + signed t n : ℤ) : ℚ) / (one : ℚ) := by push_cast; ring
  rw [hsum] at h ⊢
  unfold add
  simp only
  split
  · rename_i h0
    rw [h0, Int.cast_zero, zero_div]
    exact toRat?_zero _
  · refine toRat?_round Nat.one_pos ?_ h
    rw [← signed_eq, signed_lt_zero, Nat.cast_one, one_mul]

theorem neg_exact {x : Number} {a : ℚ} (hx : x.toRat? = some a) : x.neg.toRat? = some (-a) := by
  obtain ⟨s, m, hm, rfl, rfl⟩ := exists_of_toRat? hx
  have : signed (!s) m = -signed s m := by cases s <;> simp [signed]
  simp only [neg, toRat?, this, Int.cast_neg, neg_div]

theorem sub_exact {x y : Number} {a b : ℚ} (hx : x.toRat? = some a) (hy : y.toRat? = some b)
    (h : IsDouble (a - b)) : (x.sub y).toRat? = some (a - b) := by
  rw [sub_eq_add_neg] at h ⊢
  exact add_exact hx (neg_exact hy) h

theorem mul_exact {x y : Number} {a b : ℚ} (hx : x.toRat? = some a) (hy : y.toRat? = some b)
    (h : IsDouble (a * b)) : (x.mul y).toRat? = some (a * b) := by
  obtain ⟨s, m, hm, rfl, rfl⟩ := exists_of_toRat? hx
  obtain ⟨t, n, hn, rfl, rfl⟩ := exists_of_toRat? hy
  refine toRat?_round one_pos ?_ h
  rw [signed_eq, signed_eq, unitOf_bne, div_mul_div_comm]
  push_cast
  ring

theorem div_exact {x y : Number} {a b : ℚ} (hx : x.toRat? = some a) (hy : y.toRat? = some b)
    (hb : b ≠ 0) (h : IsDouble (a / b)) : (x.div y).toRat? = some (a / b) := by
  obtain ⟨s, m, hm, rfl, rfl⟩ := exists_of_toRat? hx
  obtain ⟨t, n, hn, rfl, rfl⟩ := exists_of_toRat? hy
  have hn0 : n ≠ 0 := by
    rintro rfl
    exact hb (by rw [signed_zero, Int.cast_zero, zero_div])
  unfold div
  simp only [hn0, if_false]
  refine toRat?_round (Nat.pos_of_ne_zero hn0) ?_ h
  have hnq : (n : ℚ) ≠ 0 := Nat.cast_ne_zero.mpr hn0
  have ht : (unitOf t : ℚ) * (unitOf t : ℚ) = 1 := by exact_mod_cast unitOf_mul_self t
  have ht0 : (unitOf t : ℚ) ≠ 0 := left_ne_zero_of_mul_eq_one ht
  have h1 := one_ne_zero
  rw [signed_eq, signed_eq, unitOf_bne]
  push_cast
  field_simp
  rw [pow_two, ht, mul_one]

/-- The next integer toward zero. -/
def truncate (q : ℚ) : ℤ := if 0 ≤ q then ⌊q⌋ else ⌈q⌉

/-- The remainder of the quotient rounded toward zero. -/
def ratRem (a b : ℚ) : ℚ := a - b * truncate (a / b)

private theorem truncate_neg (q : ℚ) : truncate (-q) = -truncate q := by
  unfold truncate
  rcases lt_trichotomy q 0 with h | rfl | h
  · rw [if_pos (by linarith), if_neg (by linarith), Int.floor_neg]
  · simp
  · rw [if_neg (by linarith), if_pos (by linarith), Int.ceil_neg]

private theorem truncate_natCast_div (m n : ℕ) : truncate ((m : ℚ) / (n : ℚ)) = (m / n : ℕ) := by
  rw [truncate, if_pos (by positivity)]
  rw [Rat.floor_natCast_div_natCast, Int.natCast_div]

/-- The quotient of two values goes by their units. -/
theorem truncate_signed (s : Bool) (m n : ℕ) :
    truncate ((unitOf s * m : ℤ) / (n : ℚ)) = unitOf s * (m / n : ℕ) := by
  cases s with
  | false =>
    rw [← truncate_natCast_div]
    simp [unitOf]
  | true =>
    rw [← truncate_natCast_div]
    simp only [unitOf, if_true, neg_mul, one_mul, Int.cast_neg, neg_div, truncate_neg,
      Int.cast_natCast]

theorem rem_exact {x y : Number} {a b : ℚ} (hx : x.toRat? = some a) (hy : y.toRat? = some b)
    (hb : b ≠ 0) (h : IsDouble (ratRem a b)) : (x.rem y).toRat? = some (ratRem a b) := by
  obtain ⟨s, m, hm, rfl, rfl⟩ := exists_of_toRat? hx
  obtain ⟨t, n, hn, rfl, rfl⟩ := exists_of_toRat? hy
  have hn0 : n ≠ 0 := by
    rintro rfl
    exact hb (by rw [signed_zero, Int.cast_zero, zero_div])
  have h1 := one_ne_zero
  have hnq : (n : ℚ) ≠ 0 := Nat.cast_ne_zero.mpr hn0
  have ht : (unitOf t : ℚ) * (unitOf t : ℚ) = 1 := by exact_mod_cast unitOf_mul_self t
  have ht0 : (unitOf t : ℚ) ≠ 0 := left_ne_zero_of_mul_eq_one ht
  have hquot : (signed s m : ℚ) / (one : ℚ) / ((signed t n : ℚ) / (one : ℚ)) =
      ((unitOf (s != t) * m : ℤ) : ℚ) / (n : ℚ) := by
    rw [signed_eq, signed_eq, unitOf_bne]
    push_cast
    field_simp
    rw [pow_two, ht, mul_one]
  have hrem : ratRem ((signed s m : ℚ) / (one : ℚ)) ((signed t n : ℚ) / (one : ℚ)) =
      ((unitOf s * (m % n : ℕ) : ℤ) : ℚ) / (one : ℚ) := by
    have hm' : (m : ℚ) = n * (m / n : ℕ) + (m % n : ℕ) := by
      exact_mod_cast (Nat.div_add_mod m n).symm
    rw [ratRem, hquot, truncate_signed, signed_eq, signed_eq, unitOf_bne]
    generalize m / n = k at hm' ⊢
    generalize m % n = r at hm' ⊢
    push_cast
    field_simp
    rw [hm']
    linear_combination (-(unitOf s : ℚ)) * (n : ℚ) * (k : ℚ) * ht
  rw [hrem] at h ⊢
  have hr : Representable (m % n) := by
    obtain ⟨u, k, hk, hq⟩ := representable_of_isDouble h
    have he : unitOf s * (m % n : ℕ) = signed u k := by
      exact_mod_cast (div_left_inj' h1).mp hq
    have := congrArg Int.natAbs he
    rw [natAbs_unitOf_mul, natAbs_signed] at this
    exact this ▸ hk
  unfold rem
  simp only [hn0, if_false, ofUnits, dif_pos hr]
  exact toRat?_finite s hr

end Number

end Roar
