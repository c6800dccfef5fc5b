import Mathlib.Tactic.Linarith
import Mathlib.Tactic.NormNum
import Roar.Optimize.Pass
import Roar.Proofs.Number.Shift
import Roar.Proofs.Optimize.Rules
import Roar.Proofs.Semantics.Eval

/-!
# The number that a simplified expression computes

For an expression of numbers, names, `-`, `+`, `*`, `/` and `%` whose exact value needs no rounding
at any step (`Expr.Exactly`), three rules can change the number: the two shifts, where the operand
is not an integer that fits, and the regrouping of a sum, where the sum of the two literals is
rounded. `SiteOk` says for each node what the rule taken there asks of its operands, and
`optimize_sameNumber_iff` that these conditions are necessary and sufficient for all nodes to keep
their number.
-/

namespace Roar

open Number Optimize

/-! ## Exact values -/

/-- The exact value of an operator. There is none for a quotient by zero. -/
def BinaryOp.exactValue? (op : BinaryOp) (a b : ℚ) : Option ℚ :=
  match op with
  | .add => some (a + b)
  | .sub => some (a - b)
  | .mul => some (a * b)
  | .div => if b = 0 then none else some (a / b)
  | .mod => if b = 0 then none else some (ratRem a b)
  | _ => none

theorem ne_and_or_of_exactValue? {op : BinaryOp} {a b q : ℚ} (h : op.exactValue? a b = some q) :
    op ≠ .and ∧ op ≠ .or := by
  constructor <;> rintro rfl <;> cases h

/-- The expression is made of numbers, of names for integers of 32 bits, of `-` and of arithmetic
operators, its exact value is `q`, and the value of each of its parts is a double. -/
inductive Expr.Exactly (env : Bytes → ℤ) : Expr → ℚ → Prop
  | number {loc : Location} {x : Number} {q : ℚ} (h : x.toRat? = some q) :
      Exactly env (.number loc x) q
  | identifier {id : Identifier} (ht : id.type = .number) (h : IsInt32 (env id.name)) :
      Exactly env (.identifier id) (env id.name)
  | neg {loc : Location} {e : Expr} {q : ℚ} {type : ValueType} (h : Exactly env e q) :
      Exactly env (.unary loc .neg e type) (-q)
  | binary {loc : Location} {op : BinaryOp} {left right : Expr} {a b q : ℚ} {type : ValueType}
      (hl : Exactly env left a) (hr : Exactly env right b) (h : op.exactValue? a b = some q)
      (hd : IsDouble q) : Exactly env (.binary loc op left right type) q

/-- The same surroundings, with integers as the values of the names. -/
def World.withIntegers (w : World) (env : Bytes → ℤ) : World :=
  { w with values := fun name => .number (.ofInt (env name)) }

/-- The finite number that an expression computes. -/
def Expr.rat? (w : World) (e : Expr) : Option ℚ :=
  match (e.eval w []).1 with
  | .number x => x.toRat?
  | _ => none

/-- The property holds of the expression and of all operands in it. -/
def Expr.Throughout (P : Expr → Prop) : Expr → Prop
  | .binary loc op left right type =>
    P (.binary loc op left right type) ∧ left.Throughout P ∧ right.Throughout P
  | .unary loc op operand type => P (.unary loc op operand type) ∧ operand.Throughout P
  | e => P e

theorem Expr.Throughout.self {P : Expr → Prop} {e : Expr} (h : e.Throughout P) : P e := by
  cases e <;> first | exact h.1 | exact h

/-! ## What the rules ask for -/

/-- The expression computes a number and makes no calls. -/
def Expr.Computes (w : World) (e : Expr) (x : Number) : Prop :=
  ∀ calls, e.eval w calls = (.number x, calls)

/-- What a rule asks of its simplified operands and of the numbers `a` and `b` that they stand for.
A shift to the left needs an integer whose product fits in 32 bits, a shift to the right a multiple
that does, and a regrouped sum must not be rounded differently. -/
def RuleOk (w : World) (rule : Rule) (left right : Expr) (a b : Option ℚ) : Prop :=
  match rule with
  | .shlRight => ∃ (k : ℕ) (z : ℤ), shiftCount? right = some k ∧ a = some (z : ℚ) ∧
      IsInt32 (z * 2 ^ k)
  | .shlLeft => ∃ (k : ℕ) (z : ℤ), shiftCount? left = some k ∧ b = some (z : ℚ) ∧
      IsInt32 (z * 2 ^ k)
  | .shr => ∃ (k : ℕ) (z : ℤ), shiftCount? right = some k ∧ a = some (z : ℚ) ∧
      IsInt32 z ∧ 2 ^ k ∣ z
  | .regroup => ∃ x c d v, sumTerms? left = some (x, c) ∧ right.number? = some d ∧
      x.Computes w v ∧ (v.add (c.add d)).toRat? = ((v.add c).add d).toRat?
  | _ => True

/-- The operands of a node are as the rule taken for it asks. -/
def SiteOk (w : World) : Expr → Prop
  | .binary loc op left right type =>
    RuleOk w (ruleOf loc op left.optimize right.optimize type) left.optimize right.optimize
      (left.rat? w) (right.rat? w)
  | _ => True

/-- The simplified expression computes the same number. -/
def SameNumber (w : World) (e : Expr) : Prop := e.optimize.rat? w = e.rat? w

instance (w : World) (e : Expr) : Decidable (SameNumber w e) := inferInstanceAs (Decidable (_ = _))

/-! ## Evaluation -/

namespace Expr.Computes

variable {w : World} {e left right : Expr} {x y z : Number}

theorem rat? (h : e.Computes w x) : e.rat? w = x.toRat? := by
  rw [Expr.rat?, h]

theorem unique (h : e.Computes w x) (h' : e.Computes w y) : x = y := by
  have := (h []).symm.trans (h' [])
  simpa using this

theorem number (loc : Location) : (Expr.number loc x).Computes w x := fun _ => rfl

theorem number_eq {loc : Location} (h : (Expr.number loc x).Computes w y) : y = x :=
  h.unique (number loc)

theorem neg (h : e.Computes w x) (loc : Location) (type : ValueType) :
    (Expr.unary loc .neg e type).Computes w x.neg := by
  intro calls
  rw [Expr.eval_unary, h]
  rfl

theorem binary {op : BinaryOp} (hl : left.Computes w x) (hr : right.Computes w y)
    (hop : op ≠ .and ∧ op ≠ .or) (h : op.apply w.host (.number x) (.number y) = .number z)
    (loc : Location) (type : ValueType) :
    (Expr.binary loc op left right type).Computes w z := by
  intro calls
  rw [Expr.eval_binary w calls loc right type (op.decidedBy_eq_false hop _), hl, hr, h]

end Expr.Computes

/-- Expressions that compute a number whatever their names stand for. -/
inductive Expr.Arithmetic : Expr → Prop
  | number {loc : Location} {x : Number} : Arithmetic (.number loc x)
  | identifier {id : Identifier} : Arithmetic (.identifier id)
  | neg {loc : Location} {e : Expr} {type : ValueType} (h : Arithmetic e) :
      Arithmetic (.unary loc .neg e type)
  | binary {loc : Location} {op : BinaryOp} {left right : Expr} {type : ValueType}
      (hop : op ≠ .and ∧ op ≠ .or) (hl : Arithmetic left) (hr : Arithmetic right) :
      Arithmetic (.binary loc op left right type)

theorem BinaryOp.exists_apply_number (host : Host) {op : BinaryOp} (hop : op ≠ .and ∧ op ≠ .or)
    (x y : Number) : ∃ z, op.apply host (.number x) (.number y) = .number z := by
  cases op <;> first | exact ⟨_, rfl⟩ | simp at hop

theorem Expr.Arithmetic.computes {e : Expr} (h : e.Arithmetic) (w : World) (env : Bytes → ℤ) :
    ∃ x, e.Computes (w.withIntegers env) x := by
  induction h with
  | number => exact ⟨_, .number _⟩
  | identifier => exact ⟨_, fun _ => rfl⟩
  | neg _ ih =>
    obtain ⟨x, hx⟩ := ih
    exact ⟨_, hx.neg _ _⟩
  | binary hop _ _ ihl ihr =>
    obtain ⟨x, hx⟩ := ihl
    obtain ⟨y, hy⟩ := ihr
    obtain ⟨z, hz⟩ := BinaryOp.exists_apply_number _ hop x y
    exact ⟨z, hx.binary hy hop hz _ _⟩

theorem Expr.Arithmetic.number?_of_literal? {e : Expr} (h : e.Arithmetic) {x : Literal}
    (hx : e.literal? = some x) : e.number? ≠ none := by
  cases h <;> simp_all [Expr.literal?, Expr.number?]

theorem Expr.Exactly.arithmetic {env : Bytes → ℤ} {e : Expr} {q : ℚ} (h : e.Exactly env q) :
    e.Arithmetic := by
  induction h with
  | number => exact .number
  | identifier => exact .identifier
  | neg _ ih => exact .neg ih
  | binary _ _ h _ ihl ihr => exact .binary (ne_and_or_of_exactValue? h) ihl ihr

/-- Simplifying an arithmetic operator leaves an arithmetic expression. -/
theorem Expr.Arithmetic.simplifies {loc : Location} {op : BinaryOp} {left right s : Expr}
    {type : ValueType} {rule : Rule} (h : Simplifies loc op left right type rule s)
    (hop : op ≠ .and ∧ op ≠ .or) (hl : left.Arithmetic) (hr : right.Arithmetic) :
    s.Arithmetic := by
  cases h with
  | compute => exact .number
  | join hx hy hn =>
    rcases hn with hn | hn
    · exact absurd hn (hl.number?_of_literal? hx)
    · exact absurd hn (hr.number?_of_literal? hy)
  | truthLeft hop' => exact absurd hop' (not_or.mpr hop)
  | truthRight hop' => exact absurd hop' (not_or.mpr hop)
  | zeroRight => exact hl
  | zeroLeft => exact hr
  | regroup =>
    cases hl with
    | binary _ hx _ => exact .binary (by decide) hx .number
  | oneRight => exact hl
  | oneLeft => exact hr
  | nothingRight => exact .number
  | nothingLeft => exact .number
  | shlRight => exact .binary (by decide) hl .number
  | shlLeft => exact .binary (by decide) hr .number
  | shr => exact .binary (by decide) hl .number
  | stay => exact .binary hop hl hr

theorem Expr.Arithmetic.optimize {e : Expr} (h : e.Arithmetic) : e.optimize.Arithmetic := by
  induction h with
  | number => exact .number
  | identifier => exact .identifier
  | @neg _ e _ _ ih =>
    rw [Expr.optimize]
    unfold simplifyUnary
    split
    · exact .number
    · simp_all
    · simp_all
    · exact .neg ih
  | binary hop _ _ ihl ihr =>
    rw [Expr.optimize]
    exact .simplifies (simplifyBinary_simplifies ..) hop ihl ihr

/-! ## One operator -/

section Operator

variable {op : BinaryOp} {x y z : Number} {a b q : ℚ}

/-- An operator whose exact value is a double is computed without rounding. -/
theorem arithmetic?_exact (hx : x.toRat? = some a) (hy : y.toRat? = some b)
    (h : op.exactValue? a b = some q) (hd : IsDouble q) :
    ∃ z, arithmetic? op x y = some z ∧ z.toRat? = some q := by
  have hz : b ≠ 0 → y.isZero = false := by
    intro hb
    by_contra h0
    have := toRat?_of_isZero (Bool.of_not_eq_false h0)
    exact hb (Option.some.inj (hy.symm.trans this))
  cases op with
  | add => cases h; exact ⟨_, rfl, add_exact hx hy hd⟩
  | sub => cases h; exact ⟨_, rfl, sub_exact hx hy hd⟩
  | mul => cases h; exact ⟨_, rfl, mul_exact hx hy hd⟩
  | div =>
    obtain ⟨hb, ⟨⟩⟩ := Option.ite_none_left_eq_some.mp h
    exact ⟨_, by rw [arithmetic?, hz hb]; rfl, div_exact hx hy hb hd⟩
  | mod =>
    obtain ⟨hb, ⟨⟩⟩ := Option.ite_none_left_eq_some.mp h
    exact ⟨_, by rw [arithmetic?, hz hb]; rfl, rem_exact hx hy hb hd⟩
  | _ => cases h

theorem apply_of_arithmetic? (host : Host) (h : arithmetic? op x y = some z) :
    op.apply host (.number x) (.number y) = .number z := by
  cases op with
  | div =>
    obtain ⟨-, ⟨⟩⟩ := Option.ite_none_left_eq_some.mp h
    rfl
  | mod =>
    obtain ⟨-, ⟨⟩⟩ := Option.ite_none_left_eq_some.mp h
    rfl
  | and => cases h
  | or => cases h
  | shl => cases h
  | shr => cases h
  | _ => cases h; rfl

theorem toRat?_of_powerOfTwo? {k : ℕ} (h : x.powerOfTwo? = some k) :
    k ≤ 30 ∧ x.toRat? = some (2 ^ k) := by
  obtain ⟨-, hk, hu, rfl⟩ := powerOfTwo?_eq_some h
  refine ⟨hk, ?_⟩
  have h1 := one_ne_zero
  have hpow : (pow2 k : ℚ) = 2 ^ k := by
    rw [show pow2 k = 2 ^ k from rfl]
    push_cast
    rfl
  rw [toRat?_finite, unitOf, if_neg Bool.false_ne_true, one_mul, Int.cast_natCast, pow2_add,
    Nat.mul_comm, ← one, Nat.cast_mul, hpow, mul_div_cancel_right₀ _ h1]

/-! ## One node -/

variable {w : World} {loc : Location} {left right s : Expr} {type : ValueType} {rule : Rule}

theorem rat?_shl_iff {k : ℕ} (hx : left.Computes w x) (ha : x.toRat? = some a) (hk : k ≤ 30)
    (l : Location) :
    (Expr.binary loc .shl left (.number l (.ofNat k)) type).rat? w = some (a * 2 ^ k) ↔
      ∃ z : ℤ, a = z ∧ IsInt32 (z * 2 ^ k) := by
  have h : (Expr.binary loc .shl left (.number l (.ofNat k)) type).Computes w (x.shl (.ofNat k)) :=
    hx.binary (.number l) (by decide) rfl loc type
  rw [h.rat?, shl_eq_mul_iff ha hk]

theorem rat?_shr_iff {k : ℕ} (hx : left.Computes w x) (ha : x.toRat? = some a) (hk : k ≤ 30)
    (l : Location) :
    (Expr.binary loc .shr left (.number l (.ofNat k)) type).rat? w = some (a / 2 ^ k) ↔
      ∃ z : ℤ, a = z ∧ IsInt32 z ∧ 2 ^ k ∣ z := by
  have h : (Expr.binary loc .shr left (.number l (.ofNat k)) type).Computes w (x.shr (.ofNat k)) :=
    hx.binary (.number l) (by decide) rfl loc type
  rw [h.rat?, shr_eq_div_iff ha hk]

private theorem literal_rat {l : Location} {v : Number} {c : ℚ} (h : (Expr.number l v).Computes w y)
    (hy : y.toRat? = some b) (hv : v.toRat? = some c) : b = c := by
  obtain rfl := h.number_eq
  exact Option.some.inj (hy.symm.trans hv)

/-- A regrouped sum keeps its value if it is not rounded differently. -/
theorem rat?_regroup_iff {env : Bytes → ℤ} {e : Expr} {c d : Number} {lx lc ld : Location}
    {t : ValueType} (he : e.Arithmetic)
    (hl : (Expr.binary lx .add e (.number lc c) t).Computes (w.withIntegers env) x)
    (hx : x.toRat? = some a) (hd : d.toRat? = some b) (hq : IsDouble (a + b)) :
    (Expr.binary loc .add e (.number lc (c.add d)) type).rat? (w.withIntegers env) = some (a + b) ↔
      RuleOk (w.withIntegers env) .regroup (.binary lx .add e (.number lc c) t) (.number ld d)
        (some a) (some b) := by
  obtain ⟨v, hv⟩ := he.computes w env
  have hsum : x = v.add c := hl.unique (hv.binary (.number lc) (by decide) rfl lx t)
  have hnew : (Expr.binary loc .add e (.number lc (c.add d)) type).Computes (w.withIntegers env)
      (v.add (c.add d)) := hv.binary (.number lc) (by decide) rfl loc type
  have hold : ((v.add c).add d).toRat? = some (a + b) := hsum ▸ add_exact hx hd hq
  rw [hnew.rat?]
  constructor
  · intro h
    exact ⟨e, c, d, v, rfl, rfl, hv, h.trans hold.symm⟩
  · rintro ⟨e', c', d', v', he', hd', hv', h⟩
    cases he'
    cases hd'
    obtain rfl := hv.unique hv'
    exact h.trans hold

/-- A rule keeps the exact value of an operator if and only if its operands are as it asks. -/
theorem rat?_simplified_iff {env : Bytes → ℤ} (hs : Simplifies loc op left right type rule s)
    (hal : left.Arithmetic) (har : right.Arithmetic)
    (hl : left.Computes (w.withIntegers env) x) (hr : right.Computes (w.withIntegers env) y)
    (hx : x.toRat? = some a) (hy : y.toRat? = some b) (h : op.exactValue? a b = some q)
    (hd : IsDouble q) :
    s.rat? (w.withIntegers env) = some q ↔
      RuleOk (w.withIntegers env) rule left right (some a) (some b) := by
  have hone : (ofNat 1).toRat? = some 1 := toRat?_ofNat (by decide)
  cases hs with
  | compute hv =>
    obtain rfl := hl.number_eq
    obtain rfl := hr.number_eq
    obtain ⟨z, hz, hq⟩ := arithmetic?_exact hx hy h hd
    rw [hv] at hz
    cases hz
    exact iff_of_true hq trivial
  | join hlx hly hn =>
    rcases hn with hn | hn
    · exact absurd hn (hal.number?_of_literal? hlx)
    · exact absurd hn (har.number?_of_literal? hly)
  | truthLeft hop => rcases hop with rfl | rfl <;> cases h
  | truthRight hop => rcases hop with rfl | rfl <;> cases h
  | zeroRight hz =>
    cases h
    obtain rfl := literal_rat hr hy (toRat?_of_eq hz (toRat?_zero false))
    rw [hl.rat?, hx, add_zero]
    exact iff_of_true rfl trivial
  | zeroLeft hz =>
    cases h
    obtain rfl := literal_rat hl hx (toRat?_of_eq hz (toRat?_zero false))
    rw [hr.rat?, hy, zero_add]
    exact iff_of_true rfl trivial
  | regroup =>
    cases h
    cases hal with
    | binary _ he _ =>
      obtain rfl := hr.number_eq
      exact rat?_regroup_iff he hl hx hy hd
  | oneRight hz =>
    cases h
    obtain rfl := literal_rat hr hy (toRat?_of_eq hz hone)
    rw [hl.rat?, hx, mul_one]
    exact iff_of_true rfl trivial
  | oneLeft hz =>
    cases h
    obtain rfl := literal_rat hl hx (toRat?_of_eq hz hone)
    rw [hr.rat?, hy, one_mul]
    exact iff_of_true rfl trivial
  | nothingRight hz =>
    cases h
    obtain rfl := literal_rat hr hy (toRat?_of_eq hz (toRat?_zero false))
    rw [mul_zero]
    exact iff_of_true (toRat?_zero false) trivial
  | nothingLeft hz =>
    cases h
    obtain rfl := literal_rat hl hx (toRat?_of_eq hz (toRat?_zero false))
    rw [zero_mul]
    exact iff_of_true (toRat?_zero false) trivial
  | shlRight hz =>
    cases h
    obtain ⟨hk, hpow⟩ := toRat?_of_powerOfTwo? hz
    obtain rfl := literal_rat hr hy hpow
    rw [rat?_shl_iff hl hx hk]
    simp [RuleOk, shiftCount?, Expr.number?, hz]
  | shlLeft hz =>
    cases h
    obtain ⟨hk, hpow⟩ := toRat?_of_powerOfTwo? hz
    obtain rfl := literal_rat hl hx hpow
    rw [mul_comm, rat?_shl_iff hr hy hk]
    simp [RuleOk, shiftCount?, Expr.number?, hz]
  | shr hz =>
    obtain ⟨-, ⟨⟩⟩ := Option.ite_none_left_eq_some.mp h
    obtain ⟨hk, hpow⟩ := toRat?_of_powerOfTwo? hz
    obtain rfl := literal_rat hr hy hpow
    rw [rat?_shr_iff hl hx hk]
    simp [RuleOk, shiftCount?, Expr.number?, hz]
  | stay =>
    obtain ⟨z, hz, hq⟩ := arithmetic?_exact hx hy h hd
    have hc := hl.binary hr (ne_and_or_of_exactValue? h) (apply_of_arithmetic? _ hz) loc type
    rw [hc.rat?]
    exact iff_of_true hq trivial

end Operator

/-! ## Whole expressions -/

section Whole

variable {env : Bytes → ℤ} {e : Expr} {q : ℚ}

/-- Evaluation computes the exact value. -/
theorem Expr.Exactly.computes (h : e.Exactly env q) (w : World) :
    ∃ x, e.Computes (w.withIntegers env) x ∧ x.toRat? = some q := by
  induction h with
  | number h => exact ⟨_, .number _, h⟩
  | @identifier id _ h =>
    refine ⟨.ofInt (env id.name), fun _ => rfl, toRat?_ofInt ?_⟩
    obtain ⟨h1, h2⟩ := h
    omega
  | neg _ ih =>
    obtain ⟨x, hx, hq⟩ := ih
    exact ⟨_, hx.neg _ _, neg_exact hq⟩
  | binary _ _ h hd ihl ihr =>
    obtain ⟨x, hx, ha⟩ := ihl
    obtain ⟨y, hy, hb⟩ := ihr
    obtain ⟨z, hz, hq⟩ := arithmetic?_exact ha hb h hd
    exact ⟨z, hx.binary hy (ne_and_or_of_exactValue? h) (apply_of_arithmetic? _ hz) _ _, hq⟩

theorem Expr.Exactly.rat? (h : e.Exactly env q) (w : World) :
    e.rat? (w.withIntegers env) = some q := by
  obtain ⟨x, hx, hq⟩ := h.computes w
  rw [hx.rat?, hq]

/-- The number of a simplified expression that keeps the exact value. -/
theorem Expr.Exactly.optimize_computes (h : e.Exactly env q) {w : World}
    (hs : SameNumber (w.withIntegers env) e) :
    ∃ x, e.optimize.Computes (w.withIntegers env) x ∧ x.toRat? = some q := by
  obtain ⟨x, hx⟩ := h.arithmetic.optimize.computes w env
  exact ⟨x, hx, by rw [← hx.rat?, hs, h.rat? w]⟩

/-- Simplifying a negation only moves the sign into a literal. -/
theorem Expr.Computes.simplify_neg {w : World} {x : Number} (h : e.Computes w x)
    (loc : Location) (type : ValueType) : (simplifyUnary loc .neg e type).Computes w x.neg := by
  unfold simplifyUnary
  split
  · obtain rfl := h.number_eq
    exact .number loc
  · simp_all
  · simp_all
  · exact h.neg loc type

/-- Simplifying keeps the number of each node of an expression if and only if the operands of each
node are as the rule taken there asks. -/
theorem throughout_sameNumber_iff (w : World) (h : e.Exactly env q) :
    e.Throughout (SameNumber (w.withIntegers env)) ↔
      e.Throughout (SiteOk (w.withIntegers env)) := by
  induction h with
  | number => exact iff_of_true rfl trivial
  | identifier => exact iff_of_true rfl trivial
  | @neg loc e a type he ih =>
    rw [Expr.Throughout, Expr.Throughout, ← ih]
    refine and_congr_left fun hall => iff_of_true ?_ trivial
    obtain ⟨x, hx, ha⟩ := he.optimize_computes hall.self
    rw [SameNumber, (Expr.Exactly.neg he).rat? w, Expr.optimize, (hx.simplify_neg loc type).rat?,
      neg_exact ha]
  | @binary loc op left right a b q type hl hr h hd ihl ihr =>
    rw [Expr.Throughout, Expr.Throughout, ← ihl, ← ihr]
    refine and_congr_left fun hall => ?_
    -- both operands keep their numbers, so only the rule of this node is left
    obtain ⟨x, hx, ha⟩ := hl.optimize_computes hall.1.self
    obtain ⟨y, hy, hb⟩ := hr.optimize_computes hall.2.self
    rw [SameNumber, (Expr.Exactly.binary hl hr h hd).rat? w, SiteOk, hl.rat? w, hr.rat? w]
    exact rat?_simplified_iff (simplifyBinary_simplifies ..) hl.arithmetic.optimize
      hr.arithmetic.optimize hx hy ha hb h hd

/-- An expression computes its exact value. Where the operands of each node in it are as the rule
taken there asks, the simplified expression computes it too, and these conditions are the ones for
each node to keep its number. -/
theorem optimize_sameNumber_iff (w : World) (h : e.Exactly env q) :
    e.rat? (w.withIntegers env) = some q ∧
      (e.Throughout (SiteOk (w.withIntegers env)) →
        e.optimize.rat? (w.withIntegers env) = some q) ∧
      (e.Throughout (SameNumber (w.withIntegers env)) ↔
        e.Throughout (SiteOk (w.withIntegers env))) := by
  have hiff := throughout_sameNumber_iff w h
  refine ⟨h.rat? w, fun hok => ?_, hiff⟩
  have hsame : SameNumber (w.withIntegers env) e := (hiff.mpr hok).self
  rw [hsame, h.rat? w]

/-- A literal, and the name `x`, at no place. -/
def literal (n : ℕ) : Expr := .number {} (.ofNat n)

def nameX : Expr := .identifier ⟨{}, ascii "x", .number, false⟩

/-- `(x * 4 + 2 + 2) / 8`, which becomes `((x << 2) + 4) >> 3`. -/
def shiftedSum : Expr :=
  .binary {} .div
    (.binary {} .add
      (.binary {} .add (.binary {} .mul nameX (literal 4) .number) (literal 2) .number)
      (literal 2) .number)
    (literal 8) .number

theorem exactly_nameX {z : ℤ} (h : IsInt32 z) : nameX.Exactly (fun _ => z) (z : ℚ) :=
  .identifier rfl h

theorem exactly_literal {n : ℕ} (h : n < 2 ^ 53) : (literal n).Exactly env ((n : ℤ) : ℚ) :=
  .number (toRat?_ofNat h)

/-- An operator with an integer as its value. -/
theorem Expr.Exactly.integer {op : BinaryOp} {left right : Expr} {a b : ℚ}
    (hl : left.Exactly env a) (hr : right.Exactly env b) (z : ℤ) (hz : z.natAbs < 2 ^ 53)
    (h : op.exactValue? a b = some (z : ℚ)) :
    (Expr.binary {} op left right .number).Exactly env z :=
  .binary hl hr h (isDouble_intCast hz)

/-- For `x = 3` the shifts and the regrouping in `(x * 4 + 2 + 2) / 8` are all as the rules ask. -/
theorem shiftedSum_sameNumber :
    shiftedSum.Exactly (fun _ => 3) 2 ∧
      shiftedSum.Throughout (SameNumber (World.bare.withIntegers fun _ => 3)) ∧
      shiftedSum.Throughout (SiteOk (World.bare.withIntegers fun _ => 3)) := by
  have he : shiftedSum.Exactly (fun _ => 3) ((2 : ℤ) : ℚ) := by
    have hx : nameX.Exactly (fun _ => 3) ((3 : ℤ) : ℚ) := exactly_nameX (by decide)
    refine .integer (.integer (.integer (.integer hx (exactly_literal (by decide)) 12 ?_ ?_)
      (exactly_literal (by decide)) 14 ?_ ?_) (exactly_literal (by decide)) 16 ?_ ?_)
      (exactly_literal (by decide)) 2 ?_ ?_
    all_goals norm_num [BinaryOp.exactValue?]
  have hsame : shiftedSum.Throughout (SameNumber (World.bare.withIntegers fun _ => 3)) := by
    refine ⟨?_, ⟨?_, ⟨?_, ⟨?_, rfl, rfl⟩, rfl⟩, rfl⟩, rfl⟩
    all_goals decide +kernel
  exact ⟨he, hsame, (optimize_sameNumber_iff World.bare he).2.2.mp hsame⟩

/-- `x / 2` becomes `x >> 1`, which is zero for `x = 1`. -/
theorem half_shifted_away :
    ¬ ∀ (w : World) (env : Bytes → ℤ) (e : Expr) (q : ℚ), e.Exactly env q →
      SameNumber (w.withIntegers env) e := by
  intro h
  have hx : nameX.Exactly (fun _ => 1) ((1 : ℤ) : ℚ) := exactly_nameX (by decide)
  have htwo : (literal 2).Exactly (fun _ => 1) ((2 : ℤ) : ℚ) := exactly_literal (by decide)
  have hhalf : IsDouble (1 / 2) :=
    ⟨.finite false (pow2 1073) (by decide +kernel), by decide +kernel⟩
  have hd : BinaryOp.div.exactValue? ((1 : ℤ) : ℚ) ((2 : ℤ) : ℚ) = some (1 / 2) := by
    norm_num [BinaryOp.exactValue?]
  have he : (Expr.binary {} .div nameX (literal 2) .number).Exactly (fun _ => 1) (1 / 2) :=
    .binary hx htwo hd hhalf
  have hsame := h World.bare (fun _ => 1) _ _ he
  revert hsame
  decide +kernel

end Whole

end Roar
