import Mathlib.Data.Rat.Floor
import Mathlib.Tactic.FieldSimp
import Mathlib.Tactic.Linarith
import Mathlib.Tactic.NormNum
import Mathlib.Tactic.Ring
import Roar.Proofs.Number.Exact
import Roar.Proofs.Semantics.Value

/-!
# Shifts in the place of products and quotients

A shift works on the integer part of a number, cut to 32 bits with a sign. So a shift to the left
is the product by `2 ^ k` exactly for the integers whose product stays in the 32 bits
(`shl_eq_mul_iff`), and a shift to the right is the quotient exactly for the multiples of `2 ^ k`
that are in them (`shr_eq_div_iff`).
-/

namespace Roar

namespace Number

/-- The integers of 32 bits with a sign. -/
def IsInt32 (z : ℤ) : Prop := -(2 ^ 31) ≤ z ∧ z < 2 ^ 31

instance (z : ℤ) : Decidable (IsInt32 z) := inferInstanceAs (Decidable (_ ∧ _))

/-! ## Integers as numbers -/

theorem pow2_add (k l : ℕ) : pow2 (k + l) = pow2 k * pow2 l := Nat.pow_add 2 k l

theorem pow2_dvd_pow2 {k l : ℕ} (h : k ≤ l) : pow2 k ∣ pow2 l := Nat.pow_dvd_pow 2 h

theorem pow2_lt_pow2 {k l : ℕ} (h : k < l) : pow2 k < pow2 l :=
  Nat.pow_lt_pow_right (by decide) h

theorem log2_lt_of_lt_pow2 {n k : ℕ} (hn : n ≠ 0) (h : n < pow2 k) : n.log2 < k :=
  (Nat.log2_lt hn).mpr h

/-- Integers below `2 ^ 53` have at most 53 bits. -/
theorem representable_mul_one {n : ℕ} (h : n < 2 ^ 53) : Representable (n * one) := by
  have h53 : n < pow2 53 := h
  rcases Nat.eq_zero_or_pos n with rfl | hpos
  · rw [Nat.zero_mul]
    exact representable_zero
  · have hlt : n * one < pow2 (53 + 1074) :=
      calc n * one < pow2 53 * one := Nat.mul_lt_mul_of_pos_right h53 one_pos
        _ = pow2 (53 + 1074) := by rw [pow2_add, one]
    have hlog := log2_lt_of_lt_pow2 (Nat.mul_pos hpos one_pos).ne' hlt
    have hdvd : pow2 ((n * one).log2 - 52) ∣ one := pow2_dvd_pow2 (by omega)
    exact ⟨hlt.trans (pow2_lt_pow2 (by decide)), hdvd.trans (Nat.dvd_mul_left one n)⟩

theorem toRat?_ofInt {z : ℤ} (h : z.natAbs < 2 ^ 53) : (ofInt z).toRat? = some (z : ℚ) := by
  have hr := representable_mul_one h
  rw [ofInt, round_exact _ Nat.one_pos (Nat.mul_one _).symm hr, toRat?_finite]
  have hz : unitOf (decide (z < 0)) * z.natAbs = z := by rw [← signed_eq, signed_lt_zero]
  have h1 := one_ne_zero
  rw [Nat.cast_mul, ← mul_assoc, hz]
  push_cast
  rw [mul_div_cancel_right₀ _ h1]

theorem toRat?_ofInt_toInt (b : BitVec 32) : (ofInt b.toInt).toRat? = some (b.toInt : ℚ) := by
  have h1 := b.le_toInt
  have h2 := b.toInt_lt
  refine toRat?_ofInt ?_
  norm_num at h1 h2
  omega

theorem toRat?_ofNat {n : ℕ} (h : n < 2 ^ 53) : (ofNat n).toRat? = some ((n : ℤ) : ℚ) := by
  have hneg : decide ((n : ℤ) < 0) = false := decide_eq_false (by omega)
  have hint : ofNat n = ofInt n := by rw [ofInt, hneg, Int.natAbs_natCast, ofNat]
  rw [hint, toRat?_ofInt (by rwa [Int.natAbs_natCast])]

theorem isDouble_intCast {z : ℤ} (h : z.natAbs < 2 ^ 53) : IsDouble (z : ℚ) :=
  ⟨ofInt z, toRat?_ofInt h⟩

/-! ## The integer part -/

theorem truncate_intCast (z : ℤ) : truncate (z : ℚ) = z := by
  unfold truncate
  split <;> simp

theorem abs_sub_truncate_lt (q : ℚ) : |q - truncate q| < 1 := by
  unfold truncate
  split
  · have h1 := Int.floor_le q
    have h2 := Int.lt_floor_add_one q
    rw [abs_lt]
    constructor <;> linarith
  · have h1 := Int.le_ceil q
    have h2 := Int.ceil_lt_add_one q
    rw [abs_lt]
    constructor <;> linarith

theorem toInt32_of_toRat? {x : Number} {a : ℚ} (h : x.toRat? = some a) :
    x.toInt32 = BitVec.ofInt 32 (truncate a) := by
  obtain ⟨s, m, hm, rfl, rfl⟩ := exists_of_toRat? h
  rw [toInt32, signed_eq s m, truncate_signed, signed_eq]

theorem shiftAmount_ofNat {k : ℕ} (hk : k ≤ 30) : (ofNat k).shiftAmount = k := by
  rw [shiftAmount, toInt32_of_toRat? (toRat?_ofNat (by omega)), truncate_intCast,
    BitVec.ofInt_natCast, BitVec.toNat_ofNat]
  omega

/-! ## What the shifts give -/

private theorem ofInt_shiftLeft (z : ℤ) (k : ℕ) :
    BitVec.ofInt 32 z <<< k = BitVec.ofInt 32 (z * 2 ^ k) := by
  have h : BitVec.twoPow 32 k = BitVec.ofInt 32 (2 ^ k) := by
    apply BitVec.eq_of_toNat_eq
    rw [BitVec.toNat_twoPow, show ((2 : ℤ) ^ k) = ((2 ^ k : ℕ) : ℤ) by push_cast; rfl,
      BitVec.ofInt_natCast, BitVec.toNat_ofNat]
  rw [← BitVec.mul_twoPow_eq_shiftLeft, BitVec.ofInt_mul, h]

theorem toRat?_shl {x : Number} {a : ℚ} {k : ℕ} (hx : x.toRat? = some a) (hk : k ≤ 30) :
    (x.shl (ofNat k)).toRat? = some (((truncate a * 2 ^ k).bmod (2 ^ 32) : ℤ) : ℚ) := by
  rw [shl, toRat?_ofInt_toInt, toInt32_of_toRat? hx, shiftAmount_ofNat hk, ofInt_shiftLeft,
    BitVec.toInt_ofInt]

theorem toRat?_shr {x : Number} {a : ℚ} {k : ℕ} (hx : x.toRat? = some a) (hk : k ≤ 30) :
    (x.shr (ofNat k)).toRat? = some (((truncate a).bmod (2 ^ 32) / 2 ^ k : ℤ) : ℚ) := by
  rw [shr, toRat?_ofInt_toInt, toInt32_of_toRat? hx, shiftAmount_ofNat hk, BitVec.toInt_sshiftRight,
    BitVec.toInt_ofInt, Int.shiftRight_eq_div_pow]
  push_cast
  rfl

/-! ## Where they are the product and the quotient -/

/-- Cutting to 32 bits adds a multiple of `2 ^ 32`. -/
theorem exists_bmod_eq (z : ℤ) : ∃ j : ℤ, z.bmod (2 ^ 32) = z + 2 ^ 32 * j := by
  refine ⟨-z.bdiv (2 ^ 32), ?_⟩
  rw [Int.bmod_eq_self_sub_mul_bdiv]
  push_cast
  ring

theorem isInt32_bmod (z : ℤ) : IsInt32 (z.bmod (2 ^ 32)) := by
  have h1 := Int.le_bmod (x := z) (show 0 < 2 ^ 32 by decide)
  have h2 := Int.bmod_lt (x := z) (show 0 < 2 ^ 32 by decide)
  rw [Nat.cast_pow] at h1 h2
  constructor <;> omega

theorem bmod_eq_self_of_isInt32 {z : ℤ} (h : IsInt32 z) : z.bmod (2 ^ 32) = z := by
  obtain ⟨h1, h2⟩ := h
  apply Int.bmod_eq_of_le <;> norm_num <;> omega

/-- A multiple of `2 ^ 32` below `2 ^ k` in magnitude is zero. -/
theorem eq_zero_of_abs_lt {j : ℤ} {k : ℕ} (hk : k ≤ 30) (h : |2 ^ 32 * j| < 2 ^ k) : j = 0 := by
  have hpow : (2 : ℤ) ^ k ≤ 2 ^ 30 := pow_le_pow_right₀ (by decide) hk
  obtain ⟨h1, h2⟩ := abs_lt.mp (h.trans_le hpow)
  omega

theorem two_pow_pos' (k : ℕ) : (0 : ℚ) < 2 ^ k := pow_pos (by norm_num) k

/-- A shift to the left is the product by `2 ^ k` for integers whose product is of 32 bits, and for
no other number. -/
theorem shl_eq_mul_iff {x : Number} {a : ℚ} {k : ℕ} (hx : x.toRat? = some a) (hk : k ≤ 30) :
    (x.shl (ofNat k)).toRat? = some (a * 2 ^ k) ↔ ∃ z : ℤ, a = z ∧ IsInt32 (z * 2 ^ k) := by
  rw [toRat?_shl hx hk, Option.some.injEq]
  constructor
  · intro h
    obtain ⟨j, hj⟩ := exists_bmod_eq (truncate a * 2 ^ k)
    have hmul : (2 ^ 32 * j : ℚ) = (a - truncate a) * 2 ^ k := by
      rw [hj] at h
      push_cast at h
      linarith
    have hlt : |2 ^ 32 * j| < (2 : ℤ) ^ k := by
      have hq : |(2 ^ 32 * j : ℚ)| < 2 ^ k := by
        rw [hmul, abs_mul, abs_of_pos (two_pow_pos' k)]
        have := mul_lt_mul_of_pos_right (abs_sub_truncate_lt a) (two_pow_pos' k)
        rwa [one_mul] at this
      exact_mod_cast hq
    have hj0 := eq_zero_of_abs_lt hk hlt
    have ha : a = truncate a := by
      rw [hj0, Int.cast_zero, mul_zero, eq_comm, mul_eq_zero] at hmul
      rcases hmul with h0 | h0
      · linarith
      · exact absurd h0 (two_pow_pos' k).ne'
    refine ⟨truncate a, ha, ?_⟩
    rw [hj0, mul_zero, add_zero] at hj
    rw [← hj]
    exact isInt32_bmod _
  · rintro ⟨z, rfl, hz⟩
    rw [truncate_intCast, bmod_eq_self_of_isInt32 hz]
    push_cast
    rfl

/-- A shift to the right is the quotient by `2 ^ k` for the multiples of `2 ^ k` of 32 bits, and for
no other number. -/
theorem shr_eq_div_iff {x : Number} {a : ℚ} {k : ℕ} (hx : x.toRat? = some a) (hk : k ≤ 30) :
    (x.shr (ofNat k)).toRat? = some (a / 2 ^ k) ↔ ∃ z : ℤ, a = z ∧ IsInt32 z ∧ 2 ^ k ∣ z := by
  have hpos : (0 : ℤ) < 2 ^ k := pow_pos (by decide) k
  rw [toRat?_shr hx hk, Option.some.injEq]
  constructor
  · intro h
    -- the quotient is an integer, so the number is a multiple, and cutting it loses less than
    -- `2 ^ k`
    set r : ℤ := (truncate a).bmod (2 ^ 32) / 2 ^ k with hr
    have ha : a = ((r * 2 ^ k : ℤ) : ℚ) := by
      rw [eq_div_iff (two_pow_pos' k).ne'] at h
      push_cast
      exact h.symm
    obtain ⟨j, hj⟩ := exists_bmod_eq (truncate a)
    have ht : truncate a = r * 2 ^ k := by rw [ha, truncate_intCast]
    have h1 := Int.mul_ediv_add_emod ((truncate a).bmod (2 ^ 32)) (2 ^ k)
    rw [← hr] at h1
    have h2 := Int.emod_nonneg ((truncate a).bmod (2 ^ 32)) hpos.ne'
    have h3 := Int.emod_lt_of_pos ((truncate a).bmod (2 ^ 32)) hpos
    have hlt : |2 ^ 32 * j| < (2 : ℤ) ^ k := by
      rw [abs_lt]
      constructor <;> linarith
    have hj0 := eq_zero_of_abs_lt hk hlt
    rw [hj0, mul_zero, add_zero] at hj
    refine ⟨r * 2 ^ k, ha, ?_, Int.dvd_mul_left _ _⟩
    rw [← ht, ← hj]
    exact isInt32_bmod _
  · rintro ⟨z, rfl, hz, c, rfl⟩
    rw [truncate_intCast, bmod_eq_self_of_isInt32 hz, Int.mul_ediv_cancel_left _ hpos.ne']
    push_cast
    rw [mul_div_cancel_left₀ _ (two_pow_pos' k).ne']

end Number

end Roar
