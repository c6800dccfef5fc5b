import Roar.Optimize.Pass

/-!
# The rules that simplify a node

`simplifyBinary` tries its rules one after the other. `ruleOf` names the one that is taken, and
`Simplifies` says for each of them what the operands are and what becomes of them. Proofs about
simplified expressions go by the cases of `simplifyBinary_simplifies`, and never open the rules
themselves. `simplifyCompare_eq` does the same for comparisons, and `Branches` with
`simplifyBranch_branches` for conditionals.
-/

namespace Roar

namespace Optimize

/-- The rules for binary operators. A side in a name is that of the literal. -/
inductive Rule where
  | compute
  | join
  | truthLeft
  | truthRight
  | zeroRight
  | zeroLeft
  | regroup
  | oneRight
  | oneLeft
  | nothing
  | shlRight
  | shlLeft
  | shr
  | stay
deriving DecidableEq, Repr

/-- The value of a truth literal. -/
def boolean? : Expr → Option Bool
  | .boolean _ value => some value
  | _ => none

/-- The expression is a truth value. -/
def isTruth (e : Expr) : Bool := (boolean? e).isSome

/-- The rule that is taken for a binary operator with simplified operands. -/
def ruleOf (loc : Location) (op : BinaryOp) (left right : Expr) (type : ValueType) : Rule :=
  if (computeNumbers? loc op left right).isSome then .compute
  else if (joinLiterals? loc op left right type).isSome then .join
  else if (shortCircuit? loc op left right).isSome then
    if isTruth left then .truthLeft else .truthRight
  else if (addZero? op left right).isSome then
    if right.isNumber (.zero false) && left.type == .number then .zeroRight else .zeroLeft
  else if (combineTerms? loc op left right type).isSome then .regroup
  else if (multiplyTrivial? loc op left right).isSome then
    if right.isNumber (.ofNat 1) then .oneRight
    else if left.isNumber (.ofNat 1) then .oneLeft
    else .nothing
  else if (reduceStrength? loc op left right).isSome then
    if op == .div then .shr else if (shiftCount? right).isSome then .shlRight else .shlLeft
  else .stay

/-- The terms of a sum with a literal. -/
def sumTerms? : Expr → Option (Expr × Number)
  | .binary _ .add x (.number _ c) _ => some (x, c)
  | _ => none

/-- What a rule asks of the operands, and what it makes of them. Where a rule has one literal, the
other operand is not a number literal: two would have been computed. -/
inductive Simplifies (loc : Location) :
    BinaryOp → Expr → Expr → ValueType → Rule → Expr → Prop
  | compute {op : BinaryOp} {x y value : Number} {lx ly : Location} {type : ValueType}
      (h : arithmetic? op x y = some value) :
      Simplifies loc op (.number lx x) (.number ly y) type .compute (.number loc value)
  | join {left right : Expr} {x y : Literal} (hl : left.literal? = some x)
      (hr : right.literal? = some y) (hn : left.number? = none ∨ right.number? = none) :
      Simplifies loc .add left right .string .join (.string loc (x.text ++ y.text))
  | truthLeft {op : BinaryOp} {right : Expr} {lb : Location} {value : Bool} {type : ValueType}
      (hop : op = .and ∨ op = .or) :
      Simplifies loc op (.boolean lb value) right type .truthLeft
        (decideWith loc (op == .and) value right)
  | truthRight {op : BinaryOp} {left : Expr} {lb : Location} {value : Bool} {type : ValueType}
      (hop : op = .and ∨ op = .or) :
      Simplifies loc op left (.boolean lb value) type .truthRight
        (decideWith loc (op == .and) value left)
  | zeroRight {left : Expr} {z : Number} {lz : Location} {type : ValueType}
      (hz : z.eq (.zero false) = true) (hl : left.number? = none) (ht : left.type = .number) :
      Simplifies loc .add left (.number lz z) type .zeroRight left
  | zeroLeft {right : Expr} {z : Number} {lz : Location} {type : ValueType}
      (hz : z.eq (.zero false) = true) (hr : right.number? = none) (ht : right.type = .number) :
      Simplifies loc .add (.number lz z) right type .zeroLeft right
  | regroup {x : Expr} {c d : Number} {lx lc ld : Location} {t : ValueType}
      (ht : x.type = .number) :
      Simplifies loc .add (.binary lx .add x (.number lc c) t) (.number ld d) .number .regroup
        (.binary loc .add x (.number lc (c.add d)) .number)
  | oneRight {left : Expr} {z : Number} {lz : Location} {type : ValueType}
      (hz : z.eq (.ofNat 1) = true) (hl : left.number? = none) :
      Simplifies loc .mul left (.number lz z) type .oneRight left
  | oneLeft {right : Expr} {z : Number} {lz : Location} {type : ValueType}
      (hz : z.eq (.ofNat 1) = true) (hr : right.number? = none) :
      Simplifies loc .mul (.number lz z) right type .oneLeft right
  | nothingRight {left : Expr} {z : Number} {lz : Location} {type : ValueType}
      (hz : z.eq (.zero false) = true) (hl : left.number? = none) :
      Simplifies loc .mul left (.number lz z) type .nothing (.number loc (.zero false))
  | nothingLeft {right : Expr} {z : Number} {lz : Location} {type : ValueType}
      (hz : z.eq (.zero false) = true) (hr : right.number? = none) :
      Simplifies loc .mul (.number lz z) right type .nothing (.number loc (.zero false))
  | shlRight {left : Expr} {z : Number} {lz : Location} {k : Nat} {type : ValueType}
      (hz : z.powerOfTwo? = some k) (hl : left.number? = none) :
      Simplifies loc .mul left (.number lz z) type .shlRight
        (.binary loc .shl left (.number lz (.ofNat k)) .number)
  | shlLeft {right : Expr} {z : Number} {lz : Location} {k : Nat} {type : ValueType}
      (hz : z.powerOfTwo? = some k) (hr : right.number? = none) :
      Simplifies loc .mul (.number lz z) right type .shlLeft
        (.binary loc .shl right (.number lz (.ofNat k)) .number)
  | shr {left : Expr} {z : Number} {lz : Location} {k : Nat} {type : ValueType}
      (hz : z.powerOfTwo? = some k) (hl : left.number? = none) :
      Simplifies loc .div left (.number lz z) type .shr
        (.binary loc .shr left (.number lz (.ofNat k)) .number)
  | stay {op : BinaryOp} {left right : Expr} {type : ValueType} :
      Simplifies loc op left right type .stay (.binary loc op left right type)

/-! ## Each rule -/

section Rules

variable {loc : Location} {op : BinaryOp} {left right e : Expr} {type : ValueType}

theorem number?_eq_some {n : Number} (h : e.number? = some n) : ∃ l, e = .number l n := by
  cases e <;> simp_all [Expr.number?]

theorem isNumber_eq_true {n : Number} (h : e.isNumber n = true) :
    ∃ l z, e = .number l z ∧ z.eq n = true := by
  unfold Expr.isNumber at h
  cases hz : e.number? with
  | none => simp [hz] at h
  | some z =>
    obtain ⟨l, rfl⟩ := number?_eq_some hz
    exact ⟨l, z, rfl, by simpa [hz] using h⟩

theorem shiftCount?_eq_some {k : Nat} (h : shiftCount? e = some k) :
    ∃ l z, e = .number l z ∧ z.powerOfTwo? = some k := by
  unfold shiftCount? at h
  obtain ⟨z, hz, hk⟩ := Option.bind_eq_some_iff.mp h
  obtain ⟨l, rfl⟩ := number?_eq_some hz
  exact ⟨l, z, rfl, hk⟩

/-- Beside a literal that every number can be computed with, the other operand is no number literal
if nothing is computed. -/
theorem number?_left_eq_none {z : Number} {l : Location} (hop : ∀ x, (arithmetic? op x z).isSome)
    (hc : computeNumbers? loc op left (.number l z) = none) : left.number? = none := by
  cases hx : left.number? with
  | none => rfl
  | some x =>
    obtain ⟨lx, rfl⟩ := number?_eq_some hx
    have h := hop x
    rw [Option.map_eq_none_iff.mp hc] at h
    cases h

theorem number?_right_eq_none {z : Number} {l : Location} (hop : ∀ y, (arithmetic? op z y).isSome)
    (hc : computeNumbers? loc op (.number l z) right = none) : right.number? = none := by
  cases hy : right.number? with
  | none => rfl
  | some y =>
    obtain ⟨ly, rfl⟩ := number?_eq_some hy
    have h := hop y
    rw [Option.map_eq_none_iff.mp hc] at h
    cases h

theorem computeNumbers?_simplifies (h : computeNumbers? loc op left right = some e) :
    Simplifies loc op left right type .compute e := by
  unfold computeNumbers? at h
  split at h
  · obtain ⟨value, hv, rfl⟩ := Option.map_eq_some_iff.mp h
    exact .compute hv
  · cases h

/-- Two numbers are not joined, as every sum of two numbers is computed. -/
theorem number?_eq_none_or (hc : computeNumbers? loc .add left right = none) :
    left.number? = none ∨ right.number? = none := by
  cases hx : left.number? with
  | none => exact .inl rfl
  | some x =>
    obtain ⟨lx, rfl⟩ := number?_eq_some hx
    exact .inr (number?_right_eq_none (fun _ => rfl) hc)

theorem joinLiterals?_simplifies (hc : computeNumbers? loc op left right = none)
    (h : joinLiterals? loc op left right type = some e) :
    Simplifies loc op left right type .join e := by
  unfold joinLiterals? at h
  split at h
  · rename_i hop
    simp only [Bool.and_eq_true, beq_iff_eq] at hop
    obtain ⟨rfl, rfl⟩ := hop
    split at h
    · rename_i hl hr
      cases h
      exact .join hl hr (number?_eq_none_or hc)
    · cases h
  · cases h

theorem shortCircuit?_simplifies (h : shortCircuit? loc op left right = some e) :
    Simplifies loc op left right type (if isTruth left then .truthLeft else .truthRight) e := by
  unfold shortCircuit? at h
  split at h
  · rename_i hop
    simp only [Bool.or_eq_true, beq_iff_eq] at hop
    split at h
    · cases h
      exact .truthLeft hop
    · rename_i hl
      rw [if_neg (by cases left <;> simp_all [isTruth, boolean?])]
      split at h
      · cases h
        exact .truthRight hop
      · cases h
  · cases h

theorem addZero?_simplifies (hc : computeNumbers? loc op left right = none)
    (h : addZero? op left right = some e) :
    Simplifies loc op left right type
      (if right.isNumber (.zero false) && left.type == .number then .zeroRight else .zeroLeft) e := by
  unfold addZero? at h
  split at h
  · rename_i hop
    obtain rfl := beq_iff_eq.mp hop
    split at h
    · rename_i hr
      rw [if_pos hr]
      cases h
      simp only [Bool.and_eq_true, beq_iff_eq] at hr
      obtain ⟨l, z, rfl, hz⟩ := isNumber_eq_true hr.1
      exact .zeroRight hz (number?_left_eq_none (fun _ => rfl) hc) hr.2
    · rename_i hr
      rw [if_neg hr]
      split at h
      · rename_i hl
        cases h
        simp only [Bool.and_eq_true, beq_iff_eq] at hl
        obtain ⟨l, z, rfl, hz⟩ := isNumber_eq_true hl.1
        exact .zeroLeft hz (number?_right_eq_none (fun _ => rfl) hc) hl.2
      · cases h
  · cases h

theorem combineTerms?_simplifies (h : combineTerms? loc op left right type = some e) :
    Simplifies loc op left right type .regroup e := by
  unfold combineTerms? at h
  split at h
  · rename_i hc
    simp only [Bool.and_eq_true, beq_iff_eq] at hc
    obtain ⟨rfl, rfl⟩ := hc
    split at h
    · split at h
      · rename_i ht
        cases h
        exact .regroup (beq_iff_eq.mp ht)
      · cases h
    · cases h
  · cases h

theorem multiplyTrivial?_simplifies (hc : computeNumbers? loc op left right = none)
    (h : multiplyTrivial? loc op left right = some e) :
    Simplifies loc op left right type
      (if right.isNumber (.ofNat 1) then .oneRight
        else if left.isNumber (.ofNat 1) then .oneLeft else .nothing) e := by
  unfold multiplyTrivial? at h
  split at h
  · rename_i hop
    obtain rfl := beq_iff_eq.mp hop
    split at h
    · rename_i hr
      rw [if_pos hr]
      cases h
      obtain ⟨l, z, rfl, hz⟩ := isNumber_eq_true hr
      exact .oneRight hz (number?_left_eq_none (fun _ => rfl) hc)
    · rename_i hr
      rw [if_neg hr]
      split at h
      · rename_i hl
        rw [if_pos hl]
        cases h
        obtain ⟨l, z, rfl, hz⟩ := isNumber_eq_true hl
        exact .oneLeft hz (number?_right_eq_none (fun _ => rfl) hc)
      · rename_i hl
        rw [if_neg hl]
        split at h
        · rename_i h0
          cases h
          rcases Bool.or_eq_true_iff.mp h0 with h0 | h0
          · obtain ⟨l, z, rfl, hz⟩ := isNumber_eq_true h0
            exact .nothingRight hz (number?_left_eq_none (fun _ => rfl) hc)
          · obtain ⟨l, z, rfl, hz⟩ := isNumber_eq_true h0
            exact .nothingLeft hz (number?_right_eq_none (fun _ => rfl) hc)
        · cases h
  · cases h

/-- A multiplier that a shift by `k` can stand for is `2 ^ k`. -/
theorem powerOfTwo?_eq_some {z : Number} {k : Nat} (h : z.powerOfTwo? = some k) :
    1 ≤ k ∧ k ≤ 30 ∧ ∃ hu, z = .finite false (pow2 (1074 + k)) hu := by
  unfold Number.powerOfTwo? at h
  split at h
  · rename_i units hu
    simp only at h
    split at h
    · rename_i hk
      obtain ⟨h1, h2, h3⟩ := hk
      rw [Option.some.injEq] at h
      rw [h] at h1 h2 h3
      subst h3
      exact ⟨h1, h2, hu, rfl⟩
    · cases h
  · cases h

private theorem isZero_of_powerOfTwo? {z : Number} {k : Nat} (h : z.powerOfTwo? = some k) :
    z.isZero = false := by
  obtain ⟨-, -, hu, rfl⟩ := powerOfTwo?_eq_some h
  have hpos := pow2_pos (1074 + k)
  simp only [Number.isZero, Number.eq, Number.relate, Number.rank, Number.zero, Number.signed,
    Bool.false_eq_true, if_false, decide_eq_false_iff_not]
  omega

theorem reduceStrength?_simplifies (hc : computeNumbers? loc op left right = none)
    (h : reduceStrength? loc op left right = some e) :
    Simplifies loc op left right type
      (if op == .div then .shr else if (shiftCount? right).isSome then .shlRight else .shlLeft) e := by
  unfold reduceStrength? at h
  split at h
  · cases hr : shiftCount? right with
    | some k =>
      simp only [shift?, hr, Option.map_some, Option.some_or, Option.some.injEq] at h
      obtain ⟨l, z, rfl, hz⟩ := shiftCount?_eq_some hr
      exact h ▸ .shlRight hz (number?_left_eq_none (fun _ => rfl) hc)
    | none =>
      simp only [shift?, hr, Option.map_none, Option.none_or] at h
      obtain ⟨k, hl, rfl⟩ := Option.map_eq_some_iff.mp h
      obtain ⟨l, z, rfl, hz⟩ := shiftCount?_eq_some hl
      exact .shlLeft hz (number?_right_eq_none (fun _ => rfl) hc)
  · obtain ⟨k, hr, rfl⟩ := Option.map_eq_some_iff.mp h
    obtain ⟨l, z, rfl, hz⟩ := shiftCount?_eq_some hr
    refine .shr hz (number?_left_eq_none (fun x => ?_) hc)
    simp [arithmetic?, isZero_of_powerOfTwo? hz]
  · cases h

/-- A binary operator is simplified by the rule that is taken for it. -/
theorem simplifyBinary_simplifies (loc : Location) (op : BinaryOp) (left right : Expr)
    (type : ValueType) :
    Simplifies loc op left right type (ruleOf loc op left right type)
      (simplifyBinary loc op left right type) := by
  unfold simplifyBinary ruleOf
  cases h1 : computeNumbers? loc op left right with
  | some e => exact computeNumbers?_simplifies h1
  | none =>
  cases h2 : joinLiterals? loc op left right type with
  | some e => exact joinLiterals?_simplifies h1 h2
  | none =>
  cases h3 : shortCircuit? loc op left right with
  | some e => exact shortCircuit?_simplifies h3
  | none =>
  cases h4 : addZero? op left right with
  | some e => exact addZero?_simplifies h1 h4
  | none =>
  cases h5 : combineTerms? loc op left right type with
  | some e => exact combineTerms?_simplifies h5
  | none =>
  cases h6 : multiplyTrivial? loc op left right with
  | some e => exact multiplyTrivial?_simplifies h1 h6
  | none =>
  cases h7 : reduceStrength? loc op left right with
  | some e => exact reduceStrength?_simplifies h1 h7
  | none => exact .stay

end Rules

/-! ## Comparisons -/

/-- The outcome of a comparison of literals. -/
def literalOutcome? (op : CompareOp) (left right : Expr) : Option Bool :=
  match left.literal?, right.literal? with
  | some x, some y => compareLiterals? op x y
  | _, _ => none

/-- A comparison is decided by its literals, or else by its operands if they say the same. -/
theorem simplifyCompare_eq (loc : Location) (op : CompareOp) (left right : Expr) :
    simplifyCompare loc op left right =
      ((literalOutcome? op left right).map (Expr.boolean loc)).getD
        (if left.same right then .boolean loc (compareSame op)
        else .compare loc op left right) := by
  unfold simplifyCompare literalOutcome?
  cases left.literal? with
  | none => rfl
  | some x =>
    cases right.literal? with
    | none => rfl
    | some y => cases h : compareLiterals? op x y <;> simp [h]

/-! ## Strings -/

/-- A string with simplified pieces is one of them as they stand, or joined anew. -/
theorem simplifyString_cases (loc : Location) (pieces simplified : List Segment) :
    simplifyString loc pieces simplified = .interpolated loc simplified ∨
      simplifyString loc pieces simplified = .interpolate loc simplified := by
  unfold simplifyString
  split
  · rename_i h
    exact .inl (by rw [h])
  · exact .inr rfl

/-! ## Conditionals -/

/-- What becomes of a conditional with simplified parts: the block that is run, if that is known;
nothing, if there is nothing to run; its blocks turned round; or itself. -/
inductive Branches (loc : Location) :
    Expr → Location → List Stmt → Alternate → List Stmt → Prop
  | known {l thenLoc : Location} {value : Bool} {thenBody : List Stmt} {alternate : Alternate} :
      Branches loc (.boolean l value) thenLoc thenBody alternate
        (if value then thenBody else alternateStmts alternate)
  | empty {condition : Expr} {thenLoc : Location} (hc : boolean? condition = none) :
      Branches loc condition thenLoc [] .none []
  | turned {l thenLoc elseLoc : Location} {left right : Expr} {thenBody elseBody : List Stmt} :
      Branches loc (.compare l .ne left right) thenLoc thenBody (.block elseLoc elseBody)
        [.branch loc (.compare l .eq left right) elseLoc elseBody (.block thenLoc thenBody)]
  | kept {condition : Expr} {thenLoc : Location} {thenBody : List Stmt} {alternate : Alternate}
      (hc : boolean? condition = none) :
      Branches loc condition thenLoc thenBody alternate
        [.branch loc condition thenLoc thenBody alternate]

theorem simplifyBranch_branches (loc : Location) (condition : Expr) (thenLoc : Location)
    (thenBody : List Stmt) (alternate : Alternate) :
    Branches loc condition thenLoc thenBody alternate
      (simplifyBranch loc condition thenLoc thenBody alternate) := by
  unfold simplifyBranch
  split
  · exact .known
  · rename_i hc
    have hb : boolean? condition = none := by
      cases condition <;> simp_all [boolean?]
    split
    · exact .empty hb
    · split
      · exact .turned
      · exact .kept hb
    · exact .kept hb

/-- The statements of a further condition stay what they are. -/
theorem alternateStmts_alternateOf (loc : Location) (ss : List Stmt) :
    alternateStmts (alternateOf loc ss) = ss := by
  unfold alternateOf
  split <;> rfl

end Optimize

end Roar
