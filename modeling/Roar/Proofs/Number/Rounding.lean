import Mathlib.Tactic.FieldSimp
import Mathlib.Tactic.Linarith
import Mathlib.Tactic.Ring
import Roar.Number.Decimal
import Roar.Proofs.Number.Shift

/-!
# The nearest double

Rounding is said twice. `Nearest x z` is what it should be: of all integers with 53 significant bits,
`z` is nearest to `x`, and where two are equally near, the one that ends in a zero bit. There is one
at most (`Nearest.unique`). `Within x m` is the interval around `m` from which one is rounded to it,
whose two halves reach half way to the neighbours of `m`; the two agree (`nearest_iff_within`).

* `nearest_round`: `Number.round` gives the nearest number.
* `RoundsTo q x`: the double nearest to the rational `q` is `x`; `roundsTo_ofDecimal` says that a
  decimal is read so.
* `readsBack_iff`: what it means that a decimal reads back.
-/

namespace Roar

namespace Number

/-! ## Numbers of 53 bits -/

/-- The distance from a number of 53 bits to the next one. -/
def spacing (n : ℕ) : ℕ := pow2 (n.log2 - 52)

/-- Nothing but zeros stands after the leading 53 bits. -/
def Significant (n : ℕ) : Prop := spacing n ∣ n

/-- The last of the leading 53 bits is zero. -/
def EndsEven (n : ℕ) : Prop := n / spacing n % 2 = 0

theorem spacing_pos (n : ℕ) : 0 < spacing n := pow2_pos _

theorem significant_zero : Significant 0 := Nat.dvd_zero _

theorem log2_mono {m n : ℕ} (h : m ≤ n) : m.log2 ≤ n.log2 := by
  by_cases hm : m = 0
  · rw [hm, Nat.log2_zero]
    exact Nat.zero_le _
  · exact (Nat.le_log2 (by omega)).mpr (le_trans (Nat.log2_self_le hm) h)

theorem spacing_dvd_spacing {m n : ℕ} (h : m ≤ n) : spacing m ∣ spacing n :=
  pow2_dvd_pow2 (Nat.sub_le_sub_right (log2_mono h) 52)

theorem spacing_mono {m n : ℕ} (h : m ≤ n) : spacing m ≤ spacing n :=
  Nat.le_of_dvd (spacing_pos n) (spacing_dvd_spacing h)

theorem pow2_le_pow2 {k l : ℕ} (h : k ≤ l) : pow2 k ≤ pow2 l := Nat.pow_le_pow_right (by decide) h

/-- A number has no more than 53 bits down to its spacing. -/
theorem lt_spacing_mul (n : ℕ) : n < spacing n * pow2 53 :=
  calc n < pow2 (n.log2 + 1) := Nat.lt_log2_self
    _ ≤ pow2 (n.log2 - 52 + 53) := pow2_le_pow2 (by omega)
    _ = spacing n * pow2 53 := pow2_add _ _

theorem endsEven_iff {n : ℕ} (h : Significant n) : EndsEven n ↔ 2 * spacing n ∣ n := by
  rw [EndsEven, ← Nat.dvd_iff_mod_eq_zero, Nat.dvd_div_iff_mul_dvd h, Nat.mul_comm]

section Neighbours

variable {m n : ℕ} (hm : Significant m)

include hm

theorem add_spacing_le (hn : Significant n) (h : m < n) : m + spacing m ≤ n := by
  have hdvd : spacing m ∣ n - m :=
    Nat.dvd_sub (Nat.dvd_trans (spacing_dvd_spacing (Nat.le_of_lt h)) hn) hm
  have hle := Nat.le_of_dvd (by omega) hdvd
  omega

theorem significant_add_spacing : Significant (m + spacing m) := by
  have htop : spacing m ∣ pow2 (m.log2 + 1) := pow2_dvd_pow2 (by omega)
  have hlt : m < pow2 (m.log2 + 1) := Nat.lt_log2_self
  have hle : m + spacing m ≤ pow2 (m.log2 + 1) := by
    have := Nat.le_of_dvd (by omega) (Nat.dvd_sub htop hm)
    omega
  rcases Nat.lt_or_eq_of_le hle with hinside | hpower
  · -- the leading bit stays where it is
    have hlog : (m + spacing m).log2 = m.log2 :=
      Nat.le_antisymm (Nat.lt_succ_iff.mp (log2_lt_of_lt_pow2 (by have := spacing_pos m; omega) hinside))
        (log2_mono (Nat.le_add_right _ _))
    have hsame : spacing (m + spacing m) = spacing m := by rw [spacing, hlog, spacing]
    rw [Significant, hsame]
    exact Nat.dvd_add hm (Nat.dvd_refl _)
  · have hlog : (pow2 (m.log2 + 1)).log2 = m.log2 + 1 := Nat.log2_two_pow
    rw [hpower, Significant, spacing, hlog]
    exact pow2_dvd_pow2 (by omega)

/-- Below a power of two the numbers lie closer together. -/
theorem spacing_pred_dvd : spacing (m - 1) ∣ m := Nat.dvd_trans (spacing_dvd_spacing (Nat.sub_le _ _)) hm

theorem add_spacing_pred_le (hn : Significant n) (h : n < m) : n + spacing (m - 1) ≤ m := by
  have hdvd := spacing_pred_dvd hm
  by_cases hlog : n.log2 = (m - 1).log2
  · have hn' : spacing (m - 1) ∣ n := by
      rw [spacing, ← hlog]
      exact hn
    have := Nat.le_of_dvd (by omega) (Nat.dvd_sub hdvd hn')
    omega
  · -- the leading bit of the number below `m` lies between the two
    have hless : n.log2 < (m - 1).log2 := by
      have := log2_mono (show n ≤ m - 1 by omega)
      omega
    have hn' : n < pow2 (m - 1).log2 := by
      have hlt : n < pow2 (n.log2 + 1) := Nat.lt_log2_self
      have := pow2_le_pow2 (show n.log2 + 1 ≤ (m - 1).log2 by omega)
      omega
    have hm' : pow2 (m - 1).log2 ≤ m - 1 := by
      refine Nat.log2_self_le fun hzero => ?_
      rw [hzero, Nat.log2_zero] at hless
      omega
    have hpower : spacing (m - 1) ∣ pow2 (m - 1).log2 := pow2_dvd_pow2 (Nat.sub_le _ _)
    have := Nat.le_of_dvd (by omega) (Nat.dvd_sub hdvd hpower)
    omega

theorem significant_sub_spacing : Significant (m - spacing (m - 1)) := by
  by_cases hzero : m = 0
  · rw [hzero]
    exact significant_zero
  · have hle : m - spacing (m - 1) ≤ m - 1 := by
      have := spacing_pos (m - 1)
      omega
    exact Nat.dvd_trans (spacing_dvd_spacing hle)
      (Nat.dvd_sub (spacing_pred_dvd hm) (Nat.dvd_refl _))

end Neighbours

/-! ## Nearer -/

variable {x a b : ℚ}

theorem abs_sub_le_left_iff (h : a < b) : |x - a| ≤ |x - b| ↔ 2 * x ≤ a + b := by
  rw [← sq_le_sq]
  constructor
  · intro hle
    by_contra hlt
    nlinarith
  · intro hle
    nlinarith

theorem abs_sub_le_right_iff (h : a < b) : |x - b| ≤ |x - a| ↔ a + b ≤ 2 * x := by
  rw [← sq_le_sq]
  constructor
  · intro hle
    by_contra hlt
    nlinarith
  · intro hle
    nlinarith

theorem abs_sub_eq_iff (h : a < b) : |x - a| = |x - b| ↔ 2 * x = a + b := by
  rw [le_antisymm_iff, abs_sub_le_left_iff h, abs_sub_le_right_iff h, ← le_antisymm_iff]

/-- The integer `z` has 53 significant bits and none of them is nearer to `x`; one that is equally
near has another last bit, and that of `z` is zero. -/
structure Nearest (x : ℚ) (z : ℤ) : Prop where
  significant : Significant z.natAbs
  least : ∀ w : ℤ, Significant w.natAbs → |x - z| ≤ |x - w|
  even : ∀ w : ℤ, Significant w.natAbs → |x - z| = |x - w| → w = z ∨ EndsEven z.natAbs

private theorem abs_neg_sub_neg (x : ℚ) (z : ℤ) : |-x - (-z : ℤ)| = |x - z| := by
  rw [Int.cast_neg, neg_sub_neg, abs_sub_comm]

theorem Nearest.neg {z : ℤ} (h : Nearest x z) : Nearest (-x) (-z) where
  significant := by
    rw [Int.natAbs_neg]
    exact h.significant
  least w hw := by
    have hleast := h.least (-w) (by rwa [Int.natAbs_neg])
    rwa [← abs_neg_sub_neg, ← abs_neg_sub_neg x (-w), neg_neg] at hleast
  even w hw heq := by
    rw [abs_neg_sub_neg, ← neg_neg w, abs_neg_sub_neg] at heq
    rcases h.even (-w) (by rwa [Int.natAbs_neg]) heq with hsame | heven
    · exact .inl (by omega)
    · exact .inr (by rwa [Int.natAbs_neg])

/-- Two nearest numbers have no number between them. -/
theorem Nearest.not_between {z z' w : ℤ} (h : Nearest x z) (h' : Nearest x z')
    (hw : Significant w.natAbs) (hlow : z < w) (hhigh : w < z') : False := by
  have hdist := le_antisymm (h.least z' h'.significant) (h'.least z h.significant)
  have hl : (z : ℚ) < w := Int.cast_lt.mpr hlow
  have hh : (w : ℚ) < z' := Int.cast_lt.mpr hhigh
  have hmiddle := (abs_sub_eq_iff (hl.trans hh)).mp hdist
  have hnear := (abs_sub_le_left_iff hl).mp (h.least w hw)
  linarith

theorem Nearest.not_lt_of_nonneg {z z' : ℤ} (h : Nearest x z) (h' : Nearest x z') (hz : 0 ≤ z)
    (hlt : z < z') : False := by
  obtain ⟨m, rfl⟩ := Int.eq_ofNat_of_zero_le hz
  obtain ⟨m', rfl⟩ := Int.eq_ofNat_of_zero_le (hz.trans hlt.le)
  have hm : Significant m := h.significant
  have hm' : Significant m' := h'.significant
  have hdist := le_antisymm (h.least m' hm') (h'.least m hm)
  have heven : 2 * spacing m ∣ m :=
    (endsEven_iff hm).mp ((h.even m' hm' hdist).resolve_left hlt.ne')
  have heven' : 2 * spacing m' ∣ m' :=
    (endsEven_iff hm').mp ((h'.even m hm hdist.symm).resolve_left hlt.ne)
  have hmm : m < m' := Int.ofNat_lt.mp hlt
  -- both end in a zero bit, so they are not neighbours
  have htwice : 2 * spacing m ≤ m' - m := by
    have hdvd := Nat.dvd_trans (Nat.mul_dvd_mul_left 2 (spacing_dvd_spacing hmm.le)) heven'
    exact Nat.le_of_dvd (by omega) (Nat.dvd_sub hdvd heven)
  have hpos := spacing_pos m
  have hbetween : Significant ((m + spacing m : ℕ) : ℤ).natAbs := significant_add_spacing hm
  exact h.not_between h' hbetween (by omega) (by omega)

theorem Nearest.unique {z z' : ℤ} (h : Nearest x z) (h' : Nearest x z') : z = z' := by
  have hnot {x : ℚ} {z z' : ℤ} (h : Nearest x z) (h' : Nearest x z') (hlt : z < z') : False := by
    rcases le_or_gt 0 z with hz | hz
    · exact h.not_lt_of_nonneg h' hz hlt
    · rcases le_or_gt z' 0 with hz' | hz'
      · exact h'.neg.not_lt_of_nonneg h.neg (by omega) (by omega)
      · exact h.not_between h' (w := 0) significant_zero hz hz'
  rcases lt_trichotomy z z' with hlt | heq | hgt
  · exact (hnot h h' hlt).elim
  · exact heq
  · exact (hnot h' h hgt).elim

/-! ## The interval around a number -/

/-- The number `x` is no farther from `m` than half the way to its neighbours, and this far only if
`m` ends in a zero bit. -/
structure Within (x : ℚ) (m : ℕ) : Prop where
  upper : 2 * x ≤ 2 * m + spacing m
  lower : 2 * m ≤ 2 * x + spacing (m - 1)
  upperTie : 2 * x = 2 * m + spacing m → EndsEven m
  lowerTie : 2 * m = 2 * x + spacing (m - 1) → EndsEven m

theorem Within.of_nearest {m : ℕ} (hx : 0 ≤ x) (h : Nearest x m) : Within x m := by
  have hm : Significant m := h.significant
  have hpos : (0 : ℚ) < spacing m := Nat.cast_pos.mpr (spacing_pos m)
  have hpos' : (0 : ℚ) < spacing (m - 1) := Nat.cast_pos.mpr (spacing_pos (m - 1))
  -- the neighbour above
  have habove : Significant ((m + spacing m : ℕ) : ℤ).natAbs := significant_add_spacing hm
  have hcast : (((m + spacing m : ℕ) : ℤ) : ℚ) = m + spacing m := by push_cast; rfl
  have hlt : ((m : ℤ) : ℚ) < ((m + spacing m : ℕ) : ℤ) := by
    rw [hcast, Int.cast_natCast]
    linarith
  have hupper := (abs_sub_le_left_iff hlt).mp (h.least _ habove)
  rw [hcast, Int.cast_natCast] at hupper
  have hupperTie : 2 * x = 2 * m + spacing m → EndsEven m := by
    intro htie
    have hdist := (abs_sub_eq_iff (x := x) hlt).mpr (by rw [hcast, Int.cast_natCast]; linarith)
    exact (h.even _ habove hdist).resolve_left fun heq => by
      have := spacing_pos m
      omega
  by_cases hzero : m = 0
  · subst hzero
    refine ⟨by linarith, by push_cast; linarith, hupperTie, fun htie => ?_⟩
    push_cast at htie
    linarith
  · -- the neighbour below
    have hle : spacing (m - 1) ≤ m := by
      have := add_spacing_pred_le hm significant_zero (Nat.pos_of_ne_zero hzero)
      omega
    have hbelow : Significant ((m - spacing (m - 1) : ℕ) : ℤ).natAbs := significant_sub_spacing hm
    have hcast' : (((m - spacing (m - 1) : ℕ) : ℤ) : ℚ) = m - spacing (m - 1) := by
      rw [Int.cast_natCast, Nat.cast_sub hle]
    have hlt' : (((m - spacing (m - 1) : ℕ) : ℤ) : ℚ) < (m : ℤ) := by
      rw [hcast', Int.cast_natCast]
      linarith
    have hlower := (abs_sub_le_right_iff hlt').mp (h.least _ hbelow)
    rw [hcast', Int.cast_natCast] at hlower
    refine ⟨by linarith, by linarith, hupperTie, fun htie => ?_⟩
    have hdist := (abs_sub_eq_iff (x := x) hlt').mpr (by rw [hcast', Int.cast_natCast]; linarith)
    exact (h.even _ hbelow hdist.symm).resolve_left fun heq => by
      have := spacing_pos (m - 1)
      omega

theorem Within.nearest {m : ℕ} (hx : 0 ≤ x) (hm : Significant m) (h : Within x m) :
    Nearest x m := by
  have hupper := h.upper
  have hlower := h.lower
  -- no number of 53 bits is nearer; one that is as near is the neighbour on its side
  have hcompare (w : ℤ) (hw : Significant w.natAbs) :
      |x - (m : ℤ)| ≤ |x - w| ∧ (|x - (m : ℤ)| = |x - w| → w = m ∨ EndsEven m) := by
    rcases lt_trichotomy (m : ℤ) w with hgt | rfl | hlt
    · obtain ⟨n, rfl⟩ := Int.eq_ofNat_of_zero_le (show 0 ≤ w by omega)
      have hn : (m : ℚ) + spacing m ≤ n := by
        exact_mod_cast add_spacing_le hm hw (Int.ofNat_lt.mp hgt)
      have hcast : ((m : ℤ) : ℚ) < (n : ℤ) := Int.cast_lt.mpr hgt
      rw [abs_sub_le_left_iff hcast, abs_sub_eq_iff hcast, Int.cast_natCast, Int.cast_natCast]
      exact ⟨by linarith, fun htie => .inr (h.upperTie (by linarith))⟩
    · exact ⟨le_refl _, fun _ => .inl rfl⟩
    · have hcast : (w : ℚ) < (m : ℤ) := Int.cast_lt.mpr hlt
      rw [abs_sub_le_right_iff hcast, eq_comm, abs_sub_eq_iff hcast, Int.cast_natCast]
      rcases le_or_gt 0 w with hw0 | hw0
      · obtain ⟨n, rfl⟩ := Int.eq_ofNat_of_zero_le hw0
        have hn : (n : ℚ) + spacing (m - 1) ≤ m := by
          exact_mod_cast add_spacing_pred_le hm hw (Int.ofNat_lt.mp hlt)
        rw [Int.cast_natCast]
        exact ⟨by linarith, fun htie => .inr (h.lowerTie (by linarith))⟩
      · have hneg : (w : ℚ) < 0 := Int.cast_lt_zero.mpr hw0
        have hhalf : (m : ℚ) ≤ 2 * x := by
          rcases Nat.eq_zero_or_pos m with rfl | hpos
          · push_cast
            linarith
          · have hle : (0 : ℚ) + spacing (m - 1) ≤ m := by
              exact_mod_cast add_spacing_pred_le hm significant_zero hpos
            linarith
        exact ⟨by linarith, fun htie => by linarith⟩
  exact ⟨hm, fun w hw => (hcompare w hw).1, fun w hw => (hcompare w hw).2⟩

theorem nearest_iff_within {m : ℕ} (hx : 0 ≤ x) :
    Nearest x m ↔ Significant m ∧ Within x m :=
  ⟨fun h => ⟨h.significant, .of_nearest hx h⟩, fun h => h.2.nearest hx h.1⟩

theorem nearest_zero : Nearest 0 0 :=
  (nearest_iff_within (m := 0) le_rfl).mpr
    ⟨significant_zero, by norm_num, by norm_num, fun _ => rfl, fun _ => rfl⟩

/-! ## Rounding -/

/-- The quotient is rounded by half at most, and by half only to an even one. -/
theorem roundDiv_spec (n : ℕ) {d : ℕ} (hd : 0 < d) :
    2 * n ≤ 2 * (roundDiv n d * d) + d ∧ 2 * (roundDiv n d * d) ≤ 2 * n + d ∧
      (2 * n = 2 * (roundDiv n d * d) + d ∨ 2 * (roundDiv n d * d) = 2 * n + d →
        roundDiv n d % 2 = 0) := by
  have hdiv := Nat.div_add_mod n d
  have hmod := Nat.mod_lt n hd
  rw [Nat.mul_comm] at hdiv
  unfold roundDiv
  simp only
  generalize n / d = q at hdiv
  generalize n % d = r at hdiv hmod
  have hsucc : (q + 1) * d = q * d + d := Nat.succ_mul q d
  split
  · omega
  · split
    · omega
    · rcases Nat.mod_two_eq_zero_or_one q with heven | hodd
      · rw [heven, Nat.add_zero]
        omega
      · rw [hodd]
        omega

/-- The interval around a number, for a quotient. -/
theorem within_div {num den m : ℕ} (hden : 0 < den)
    (hupper : 2 * num ≤ (2 * m + spacing m) * den)
    (hlower : 2 * m * den ≤ 2 * num + spacing (m - 1) * den)
    (hupperTie : 2 * num = (2 * m + spacing m) * den → EndsEven m)
    (hlowerTie : 2 * m * den = 2 * num + spacing (m - 1) * den → EndsEven m) :
    Within ((num : ℚ) / den) m := by
  have hpos : (0 : ℚ) < den := Nat.cast_pos.mpr hden
  have hx : 2 * ((num : ℚ) / den) = ((2 * num : ℕ) : ℚ) / den := by push_cast; ring
  have hshift : 2 * ((num : ℚ) / den) + spacing (m - 1) =
      ((2 * num + spacing (m - 1) * den : ℕ) : ℚ) / den := by
    push_cast
    field_simp
  have hm : 2 * (m : ℚ) = ((2 * m * den : ℕ) : ℚ) / den := by
    push_cast
    field_simp
  have hm' : 2 * (m : ℚ) + spacing m = (((2 * m + spacing m) * den : ℕ) : ℚ) / den := by
    push_cast
    field_simp
  refine ⟨?_, ?_, fun htie => hupperTie ?_, fun htie => hlowerTie ?_⟩
  · rw [hx, hm', div_le_div_iff_of_pos_right hpos]
    exact_mod_cast hupper
  · rw [hshift, hm, div_le_div_iff_of_pos_right hpos]
    exact_mod_cast hlower
  · rw [hx, hm', div_left_inj' hpos.ne'] at htie
    exact_mod_cast htie
  · rw [hshift, hm, div_left_inj' hpos.ne'] at htie
    exact_mod_cast htie

/-- An even multiple of a power of two with 53 bits ends in a zero bit. -/
theorem significant_mul_pow2 {k s : ℕ} (hk : k ≤ pow2 53) :
    Significant (k * pow2 s) ∧ (k % 2 = 0 → EndsEven (k * pow2 s)) := by
  have hdvd : spacing (k * pow2 s) ∣ k * pow2 s ∧
      (k % 2 = 0 → 2 * spacing (k * pow2 s) ∣ k * pow2 s) := by
    rcases Nat.lt_or_eq_of_le hk with hlt | rfl
    · by_cases hzero : k = 0
      · simp [hzero]
      have hprod : k * pow2 s < pow2 (53 + s) := by
        rw [pow2_add]
        exact Nat.mul_lt_mul_of_pos_right hlt (pow2_pos s)
      have hlog : (k * pow2 s).log2 < 53 + s :=
        log2_lt_of_lt_pow2 (Nat.mul_ne_zero hzero (pow2_pos s).ne') hprod
      have hspacing : spacing (k * pow2 s) ∣ pow2 s := pow2_dvd_pow2 (by omega)
      exact ⟨Nat.dvd_trans hspacing (Nat.dvd_mul_left _ _),
        fun heven => Nat.mul_dvd_mul (Nat.dvd_of_mod_eq_zero heven) hspacing⟩
    · have hlog : (pow2 (53 + s)).log2 = 53 + s := Nat.log2_two_pow
      have htwice : 2 * pow2 (53 + s - 52) = pow2 (1 + (53 + s - 52)) := (pow2_add 1 _).symm
      rw [← pow2_add, spacing, hlog, htwice]
      exact ⟨pow2_dvd_pow2 (by omega), fun _ => pow2_dvd_pow2 (by omega)⟩
  exact ⟨hdvd.1, fun heven => (endsEven_iff hdvd.1).mpr (hdvd.2 heven)⟩

private theorem pow2_le_spacing {n s : ℕ} (hn : pow2 (52 + s) ≤ n) : pow2 s ≤ spacing n := by
  have hlog : (pow2 (52 + s)).log2 = 52 + s := Nat.log2_two_pow
  have hmono := spacing_mono hn
  rwa [spacing, hlog, Nat.add_sub_cancel_left] at hmono

/-- A quotient has at most 53 bits above the place `s`, and not fewer if any are below it. -/
theorem quotient_bits {num den s : ℕ} (hden : 0 < den) (hs : (num / den).log2 - 52 = s) :
    num < pow2 (53 + s) * den ∧ (s = 0 ∨ pow2 (52 + s) * den ≤ num) := by
  constructor
  · have hquot : num / den < pow2 ((num / den).log2 + 1) := Nat.lt_log2_self
    have hle := pow2_le_pow2 (show (num / den).log2 + 1 ≤ 53 + s by omega)
    exact (Nat.div_lt_iff_lt_mul hden).mp (hquot.trans_le hle)
  · refine (Nat.eq_zero_or_pos s).imp_right fun hpos => ?_
    have hne : num / den ≠ 0 := by
      intro hzero
      rw [hzero, Nat.log2_zero] at hs
      omega
    have hself : pow2 (num / den).log2 ≤ num / den := Nat.log2_self_le hne
    rw [show (num / den).log2 = 52 + s by omega] at hself
    exact (Nat.le_div_iff_mul_le hden).mp hself

/-- A quotient is within reach of a number that is at most half a step away, if the numbers around
that one are as far apart as a step. Below it they need not be if the quotient is above. -/
theorem within_of_half_step {num den m step : ℕ} (hden : 0 < den)
    (hupper : 2 * num ≤ 2 * (m * den) + step * den) (hlower : 2 * (m * den) ≤ 2 * num + step * den)
    (htie : 2 * num = 2 * (m * den) + step * den ∨ 2 * (m * den) = 2 * num + step * den → EndsEven m)
    (hstep : step ≤ spacing m) (hbelow : step ≤ spacing (m - 1) ∨ m * den ≤ num) :
    Within ((num : ℚ) / den) m := by
  have hmul := Nat.mul_le_mul_right den hstep
  refine within_div hden ?_ ?_ ?_ ?_
  · rw [Nat.add_mul, Nat.mul_assoc]
    omega
  · rw [Nat.mul_assoc]
    rcases hbelow with hle | hle
    · have := Nat.mul_le_mul_right den hle
      omega
    · omega
  · intro heq
    rw [Nat.add_mul, Nat.mul_assoc] at heq
    exact htie (.inl (by omega))
  · intro heq
    rw [Nat.mul_assoc] at heq
    rcases hbelow with hle | hle
    · have := Nat.mul_le_mul_right den hle
      exact htie (.inr (by omega))
    · have := Nat.mul_pos (spacing_pos (m - 1)) hden
      omega

/-- What is kept of a quotient is the number of 53 bits nearest to it. -/
theorem nearest_round (num : ℕ) {den : ℕ} (hden : 0 < den) :
    Nearest ((num : ℚ) / den)
      (roundDiv num (den * pow2 ((num / den).log2 - 52)) * pow2 ((num / den).log2 - 52) : ℕ) := by
  generalize hs : (num / den).log2 - 52 = s
  obtain ⟨hnum, hlarge⟩ := quotient_bits hden hs
  obtain ⟨hlow, hhigh, htie⟩ := roundDiv_spec num (Nat.mul_pos hden (pow2_pos s))
  generalize roundDiv num (den * pow2 s) = k at hlow hhigh htie
  rw [show k * (den * pow2 s) = k * pow2 s * den by ring, Nat.mul_comm den] at hlow hhigh htie
  have hpos : 0 < pow2 s * den := Nat.mul_pos (pow2_pos s) hden
  have hmul {a b : ℕ} (h : a + 1 ≤ b) : a * pow2 s * den + pow2 s * den ≤ b * pow2 s * den := by
    rw [← Nat.add_mul, ← Nat.succ_mul]
    exact Nat.mul_le_mul_right _ (Nat.mul_le_mul_right _ h)
  -- the bits that are kept
  have hk : k ≤ pow2 53 := by
    by_contra hgt
    have := hmul (show pow2 53 + 1 ≤ k by omega)
    rw [← pow2_add] at this
    omega
  have hk' : s = 0 ∨ pow2 52 ≤ k := by
    refine hlarge.imp_right fun hle => ?_
    by_contra hlt
    have := hmul (show k + 1 ≤ pow2 52 by omega)
    rw [← pow2_add] at this
    omega
  obtain ⟨hsignificant, heven⟩ := significant_mul_pow2 (s := s) hk
  refine (nearest_iff_within (by positivity)).mpr ⟨hsignificant, ?_⟩
  refine within_of_half_step hden hlow hhigh (fun h => heven (htie h)) ?_ ?_
  · rcases hk' with rfl | hk'
    · exact spacing_pos _
    · exact pow2_le_spacing (pow2_add 52 s ▸ Nat.mul_le_mul_right _ hk')
  · -- right under the leading bit the spacing is smaller, but nothing is rounded up there
    rcases hk' with rfl | hk'
    · exact .inl (spacing_pos _)
    have hle : pow2 (52 + s) ≤ k * pow2 s := pow2_add 52 s ▸ Nat.mul_le_mul_right _ hk'
    rcases Nat.eq_or_lt_of_le hle with hfirst | hmore
    · rcases hlarge with rfl | hlarge
      · exact .inl (spacing_pos _)
      · exact .inr (hfirst ▸ hlarge)
    · exact .inl (pow2_le_spacing (by omega))

/-! ## Doubles -/

/-- The rational `q` is rounded to the double `x`: it is the nearest number of 53 bits, or an
infinity where that is too large for a double. What is rounded to zero may have either sign. -/
def RoundsTo (q : ℚ) (x : Number) : Prop :=
  ∃ negative units, Nearest (q * one) (signed negative units) ∧ x = ofUnits negative units

theorem exists_nearest_round (negative : Bool) (num : ℕ) {den : ℕ} (hden : 0 < den) :
    ∃ m : ℕ, Nearest ((num : ℚ) / den) m ∧ round negative num den = ofUnits negative m :=
  ⟨_, nearest_round num hden, rfl⟩

end Number

/-- The rational that a decimal stands for. -/
def Decimal.value (d : Decimal) : ℚ := d.coefficient * (10 : ℚ) ^ d.exponent

theorem pow10_pos (k : ℕ) : 0 < pow10 k := Nat.pow_pos (by decide)

theorem pow10_le_pow10 {k l : ℕ} (h : k ≤ l) : pow10 k ≤ pow10 l :=
  Nat.pow_le_pow_right (by decide) h

theorem pow10_add (k l : ℕ) : pow10 (k + l) = pow10 k * pow10 l := Nat.pow_add ..

theorem cast_pow10 (k : ℕ) : (pow10 k : ℚ) = 10 ^ k := Nat.cast_pow 10 k

theorem Decimal.value_nonneg (d : Decimal) : 0 ≤ d.value :=
  mul_nonneg (Nat.cast_nonneg _) (zpow_nonneg (by norm_num) _)

theorem ten_zpow_eq (e : ℤ) : (10 : ℚ) ^ e = (pow10 e.toNat : ℚ) / pow10 (-e).toNat := by
  rw [cast_pow10, cast_pow10, eq_div_iff (by positivity), ← zpow_natCast, ← zpow_natCast,
    ← zpow_add₀ (by norm_num)]
  congr 1
  omega

namespace Number

theorem exists_nearest_ofDecimal (d : Decimal) :
    ∃ m : ℕ, Nearest (d.value * one) m ∧ ofDecimal d = ofUnits false m := by
  have hvalue : d.value * one =
      ((d.coefficient * pow10 d.exponent.toNat * one : ℕ) : ℚ) / pow10 (-d.exponent).toNat := by
    rw [Decimal.value, ten_zpow_eq]
    push_cast
    ring
  rw [hvalue]
  exact exists_nearest_round false _ (pow10_pos _)

theorem roundsTo_ofDecimal (d : Decimal) : RoundsTo d.value (ofDecimal d) := by
  obtain ⟨m, hnearest, heq⟩ := exists_nearest_ofDecimal d
  exact ⟨false, m, hnearest, heq⟩

/-- A decimal reads back as the units of a double exactly if these are nearest to it. -/
theorem readsBack_iff {units : ℕ} (h : Representable units) (d : Decimal) :
    readsBack units d ↔ Nearest (d.value * one) units := by
  obtain ⟨m, hnearest, heq⟩ := exists_nearest_ofDecimal d
  rw [readsBack, heq, beq_iff_eq]
  constructor
  · intro hrank
    unfold ofUnits at hrank
    split at hrank
    · obtain rfl : m = units := Int.ofNat.inj (Option.some.inj hrank)
      exact hnearest
    · have hlarge : pow2 2098 = units := Int.ofNat.inj (Option.some.inj hrank)
      exact absurd h.1 (by omega)
  · intro hunits
    obtain rfl : m = units := Int.ofNat.inj (hnearest.unique hunits)
    rw [ofUnits, dif_pos h]
    rfl

end Number

end Roar
