import Roar.Optimize.Pass
import Roar.Proofs.Optimize.Arithmetic

/-!
# Simplified expressions that keep their value and their calls

Some rules leave out an operand that is still evaluated in the source: a truth value on the right of
`and` and `or`, a product by zero, a comparison of an expression with itself. Other rules put
another value in the place of the one that a node has. `SiteKeeps` says for each node what the rule
taken there asks of the simplified operands, and `Expr.along_sameOutcome_iff` that these conditions
are the ones for every node that is evaluated to keep its value and its calls.
-/

namespace Roar

open Optimize

/-! ## Nodes along an evaluation -/

mutual

/-- The property holds of every node that is evaluated, with the calls made before it. -/
def Expr.Along (w : World) (P : Expr → List Call → Prop) : Expr → List Call → Prop
  | .interpolated loc segments, calls =>
    P (.interpolated loc segments) calls ∧ Segment.AlongList w P segments calls
  | .binary loc op left right type, calls =>
    P (.binary loc op left right type) calls ∧ left.Along w P calls ∧
      (op.decidedBy (left.eval w calls).1 = false → right.Along w P (left.eval w calls).2)
  | .compare loc op left right, calls =>
    P (.compare loc op left right) calls ∧ left.Along w P calls ∧
      right.Along w P (left.eval w calls).2
  | .unary loc op operand type, calls =>
    P (.unary loc op operand type) calls ∧ operand.Along w P calls
  | .call loc callee args type builtin, calls =>
    P (.call loc callee args type builtin) calls ∧ Expr.AlongList w P args calls
  | .range loc bound, calls => P (.range loc bound) calls ∧ bound.Along w P calls
  | .number loc value, calls => P (.number loc value) calls
  | .string loc value, calls => P (.string loc value) calls
  | .boolean loc value, calls => P (.boolean loc value) calls
  | .identifier id, calls => P (.identifier id) calls

/-- The nodes of expressions that are evaluated one after the other. -/
def Expr.AlongList (w : World) (P : Expr → List Call → Prop) : List Expr → List Call → Prop
  | [], _ => True
  | e :: es, calls => e.Along w P calls ∧ Expr.AlongList w P es (e.eval w calls).2

/-- The nodes of a piece of a string. -/
def Segment.Along (w : World) (P : Expr → List Call → Prop) : Segment → List Call → Prop
  | .text _, _ => True
  | .embedded value, calls => value.Along w P calls

/-- The nodes of the pieces of a string. -/
def Segment.AlongList (w : World) (P : Expr → List Call → Prop) : List Segment → List Call → Prop
  | [], _ => True
  | s :: ss, calls => s.Along w P calls ∧ Segment.AlongList w P ss (s.eval w calls).2

end

theorem Expr.Along.self {w : World} {P : Expr → List Call → Prop} {e : Expr} {calls : List Call}
    (h : e.Along w P calls) : P e calls := by
  cases e <;> simp only [Expr.Along] at h <;> first | exact h.1 | exact h

/-- The simplified expression has the same value and makes the same calls. -/
def SameOutcome (w : World) (e : Expr) (calls : List Call) : Prop :=
  e.optimize.eval w calls = e.eval w calls

/-! ## What the rules ask for -/

/-- What a rule asks of simplified operands, evaluated after some calls. Where the rule leaves out
an operand, that operand makes no calls: the calls after it are those before. -/
def RuleKeeps (w : World) (op : BinaryOp) (rule : Rule) (left right : Expr) (calls : List Call) :
    Prop :=
  let v := (left.eval w calls).1
  let between := (left.eval w calls).2
  let u := (right.eval w between).1
  match rule with
  | .compute | .truthLeft | .stay => True
  | .join => (∃ s, v = .string s) ∨ ∃ s, u = .string s
  | .truthRight => ∃ b, boolean? right = some b ∧
      if b = (op == .and) then op.decidedBy v = true ∨ v = .boolean b
      else between = calls ∧ (op.decidedBy v = true → v = .boolean b)
  | .zeroRight | .oneRight => op.apply w.host v u = v
  | .zeroLeft | .oneLeft => op.apply w.host v u = u
  | .nothing => (right.eval w between).2 = calls ∧ op.apply w.host v u = .number (.zero false)
  | .shlRight => ∃ k, shiftCount? right = some k ∧
      op.apply w.host v u = BinaryOp.shl.apply w.host v (.number (.ofNat k))
  | .shlLeft => ∃ k, shiftCount? left = some k ∧
      op.apply w.host v u = BinaryOp.shl.apply w.host u (.number (.ofNat k))
  | .shr => ∃ k, shiftCount? right = some k ∧
      op.apply w.host v u = BinaryOp.shr.apply w.host v (.number (.ofNat k))
  | .regroup => ∃ x c d, sumTerms? left = some (x, c) ∧ right.number? = some d ∧
      op.apply w.host v u = op.apply w.host (x.eval w calls).1 (.number (c.add d))

/-- Two operands that say the same make no calls and compare as one value with itself. -/
def CompareKeeps (w : World) (op : CompareOp) (left right : Expr) (calls : List Call) : Prop :=
  literalOutcome? op left right = none → left.same right = true →
    (right.eval w (left.eval w calls).2).2 = calls ∧
      op.apply w.host (left.eval w calls).1 (right.eval w (left.eval w calls).2).1 = compareSame op

/-- What is negated twice is a truth value. -/
def UnaryKeeps (w : World) (op : UnaryOp) (operand : Expr) (calls : List Call) : Prop :=
  match op, operand with
  | .not, .unary _ .not inner _ => ∃ b, (inner.eval w calls).1 = .boolean b
  | _, _ => True

/-- The simplified operands of a node are as the rule taken for it asks. -/
def SiteKeeps (w : World) (e : Expr) (calls : List Call) : Prop :=
  match e with
  | .binary loc op left right type =>
    RuleKeeps w op (ruleOf loc op left.optimize right.optimize type) left.optimize right.optimize
      calls
  | .compare _ op left right => CompareKeeps w op left.optimize right.optimize calls
  | .unary _ op operand _ => UnaryKeeps w op operand.optimize calls
  | _ => True

/-! ## Literals -/

/-- The value of a literal, when the program runs. -/
def Literal.value : Literal → Value
  | .number x => .number x
  | .string s => .string s
  | .boolean b => .boolean b

section Node

variable {w : World} {calls : List Call} {loc : Location} {left right s : Expr} {type : ValueType}

theorem eval_of_literal? {e : Expr} {x : Literal} (h : e.literal? = some x) (calls : List Call) :
    e.eval w calls = (x.value, calls) := by
  cases e with
  | number => cases h; rfl
  | string => cases h; rfl
  | boolean => cases h; rfl
  | _ => cases h

theorem Literal.toText_value (host : Host) (x : Literal) : x.value.toText host = x.text := by
  cases x <;> rfl

/-- Two literals of which one is a string are added as texts. -/
theorem Literal.sum_value_eq_iff (host : Host) (x y : Literal) :
    x.value.sum host y.value = .string (x.text ++ y.text) ↔
      (∃ s, x.value = .string s) ∨ ∃ s, y.value = .string s := by
  cases x <;> cases y <;>
    simp [Literal.value, Value.sum, Value.primitive, Value.toText, Literal.text]

theorem Number.le_eq_lt_or_eq (x y : Number) : x.le y = (x.lt y || x.eq y) := by
  unfold Number.le Number.lt Number.eq Number.relate
  split
  · rw [← Bool.decide_or]
    exact decide_eq_decide.mpr (by omega)
  · rfl

theorem Number.eq_symm (x y : Number) : x.eq y = y.eq x := by
  unfold Number.eq Number.relate
  cases x.rank <;> cases y.rank <;> simp [eq_comm]

private theorem compareWith_number (host : Host) (op : CompareOp) (x y : Number) :
    compareWith Number.eq Number.lt op x y = op.apply host (.number x) (.number y) := by
  unfold compareWith CompareOp.apply
  cases op.canonical with
  | le => exact (x.le_eq_lt_or_eq y).symm
  | ge => exact (Number.eq_symm x y ▸ y.le_eq_lt_or_eq x).symm
  | _ => rfl

theorem compareWith_string (host : Host) (op : CompareOp) (s t : Bytes) :
    compareWith (· == ·) (fun x y => decide (x < y)) op s t =
      op.apply host (.string s) (.string t) := by
  unfold compareWith CompareOp.apply
  cases op.canonical with
  | ge =>
    change (decide (t < s) || s == t) = (decide (t < s) || t == s)
    rw [Bool.beq_comm]
  | _ => rfl

/-- Values of different kinds are told apart, and so are different truth values. -/
theorem apply_isEquality (host : Host) {op : CompareOp} (h : op.isEquality = true) (v u : Value) :
    op.apply host v u = (v.equals u == (op.canonical == .eq)) := by
  simp only [CompareOp.isEquality, Bool.or_eq_true, beq_iff_eq] at h
  unfold CompareOp.apply
  rcases h with h | h
  all_goals
    rw [h]
    cases v.equals u <;> rfl

/-- Literals compare as their values do. -/
theorem compareLiterals?_eq_some {op : CompareOp} {x y : Literal} {b : Bool} (host : Host)
    (h : compareLiterals? op x y = some b) : op.apply host x.value y.value = b := by
  unfold compareLiterals? at h
  split at h
  · cases h
    exact (compareWith_number host op _ _).symm
  · cases h
    exact (compareWith_string host op _ _).symm
  · obtain ⟨he, ⟨⟩⟩ := Option.ite_none_right_eq_some.mp h
    rw [apply_isEquality host he]
    rfl
  · obtain ⟨he, ⟨⟩⟩ := Option.ite_none_right_eq_some.mp h
    rw [apply_isEquality host he]
    unfold CompareOp.isEquality at he
    cases x <;> cases y <;> cases hc : op.canonical <;> simp_all [Literal.value, Value.equals]

/-! ## One node -/

/-- A truth value on the left of `and` and `or` leaves the right operand or decides. -/
theorem eval_truthLeft {op : BinaryOp} (hop : op = .and ∨ op = .or) (lb : Location) (b : Bool) :
    (Expr.binary loc op (.boolean lb b) right type).eval w calls =
      (decideWith loc (op == .and) b right).eval w calls := by
  rcases hop with rfl | rfl <;> cases b <;> rfl

/-- A truth value on the right leaves the left operand if that one decides or is the same truth
value, and takes its place if that one makes no calls and is the same where it decides. -/
theorem eval_truthRight_iff {op : BinaryOp} (hop : op = .and ∨ op = .or) (lb : Location)
    (b : Bool) :
    (Expr.binary loc op left (.boolean lb b) type).eval w calls =
        (decideWith loc (op == .and) b left).eval w calls ↔
      RuleKeeps w op .truthRight left (.boolean lb b) calls := by
  obtain ⟨v, between, hv⟩ : ∃ v between, left.eval w calls = (v, between) := ⟨_, _, rfl⟩
  cases hd : op.decidedBy v with
  | true =>
    rw [Expr.eval_decided w calls loc _ type (by rw [hv, hd])]
    rcases hop with rfl | rfl <;> cases b <;>
      simp [RuleKeeps, decideWith, boolean?, hv, hd, and_comm]
  | false =>
    rw [Expr.eval_binary w calls loc _ type (by rw [hv, hd])]
    have happly : op.apply w.host v (.boolean b) = .boolean b := by
      rcases hop with rfl | rfl <;> simp_all [BinaryOp.decidedBy, BinaryOp.apply]
    rcases hop with rfl | rfl <;> cases b <;>
      simp [RuleKeeps, decideWith, boolean?, hv, hd, happly, eq_comm (b := v)]

/-- A rule keeps the value and the calls of an operator if and only if its operands are as it
asks. -/
theorem eval_simplified_iff {op : BinaryOp} {rule : Rule}
    (hs : Simplifies loc op left right type rule s) :
    (Expr.binary loc op left right type).eval w calls = s.eval w calls ↔
      RuleKeeps w op rule left right calls := by
  cases hs with
  | compute h =>
    have hop : op ≠ .and ∧ op ≠ .or := by constructor <;> rintro rfl <;> cases h
    rw [Expr.eval_binary w calls loc _ type (op.decidedBy_eq_false hop _)]
    exact iff_of_true (by simp [apply_of_arithmetic? _ h]) trivial
  | join hl hr =>
    rw [Expr.eval_binary w calls loc right .string rfl]
    simp only [RuleKeeps, eval_of_literal? hl, eval_of_literal? hr, Expr.eval_string,
      ← Literal.sum_value_eq_iff w.host, Prod.mk.injEq, and_true]
    rfl
  | truthLeft hop => exact iff_of_true (eval_truthLeft hop _ _) trivial
  | truthRight hop => exact eval_truthRight_iff hop _ _
  | zeroRight =>
    rw [Expr.eval_binary w calls loc _ type rfl]
    simp [RuleKeeps, Prod.ext_iff]
  | zeroLeft =>
    rw [Expr.eval_binary w calls loc _ type rfl]
    simp [RuleKeeps, Prod.ext_iff]
  | @regroup x c d lx lc ld t =>
    have hcalls : ((Expr.binary lx .add x (.number lc c) t).eval w calls).2 =
        (x.eval w calls).2 := by
      rw [Expr.eval_binary w calls lx _ t rfl, Expr.eval_number]
    rw [Expr.eval_binary w calls loc _ .number rfl, Expr.eval_binary w calls loc _ .number rfl]
    simp [RuleKeeps, sumTerms?, Expr.number?, hcalls]
  | oneRight =>
    rw [Expr.eval_binary w calls loc _ type rfl]
    simp [RuleKeeps, Prod.ext_iff]
  | oneLeft =>
    rw [Expr.eval_binary w calls loc _ type rfl]
    simp [RuleKeeps, Prod.ext_iff]
  | nothingRight =>
    rw [Expr.eval_binary w calls loc _ type rfl]
    simp [RuleKeeps, and_comm]
  | nothingLeft =>
    rw [Expr.eval_binary w calls loc _ type rfl]
    simp [RuleKeeps, and_comm]
  | shlRight hz =>
    rw [Expr.eval_binary w calls loc _ type rfl, Expr.eval_binary w calls loc _ .number rfl]
    simp [RuleKeeps, shiftCount?, Expr.number?, hz]
  | shlLeft hz =>
    rw [Expr.eval_binary w calls loc _ type rfl, Expr.eval_binary w calls loc _ .number rfl]
    simp [RuleKeeps, shiftCount?, Expr.number?, hz]
  | shr hz =>
    rw [Expr.eval_binary w calls loc _ type rfl, Expr.eval_binary w calls loc _ .number rfl]
    simp [RuleKeeps, shiftCount?, Expr.number?, hz]
  | stay => exact iff_of_true rfl trivial

theorem eval_simplifyCompare_iff (op : CompareOp) :
    (Expr.compare loc op left right).eval w calls =
        (simplifyCompare loc op left right).eval w calls ↔
      CompareKeeps w op left right calls := by
  rw [simplifyCompare_eq]
  unfold CompareKeeps
  cases h : literalOutcome? op left right with
  | some outcome =>
    refine iff_of_true ?_ (by simp)
    unfold literalOutcome? at h
    split at h
    · rename_i x y hx hy
      rw [Expr.eval_compare, eval_of_literal? hx, eval_of_literal? hy, compareLiterals?_eq_some _ h]
      rfl
    · cases h
  | none =>
    by_cases hs : left.same right
    · simp [Expr.eval_compare, hs, and_comm]
    · simp [hs]

theorem eval_simplifyUnary_iff {operand : Expr} (op : UnaryOp) :
    (Expr.unary loc op operand type).eval w calls =
        (simplifyUnary loc op operand type).eval w calls ↔
      UnaryKeeps w op operand calls := by
  unfold simplifyUnary
  split
  · exact iff_of_true rfl trivial
  · exact iff_of_true rfl trivial
  · rename_i l inner t
    simp only [Expr.eval_unary, UnaryKeeps, Prod.ext_iff]
    cases (inner.eval w calls).1 <;> simp [UnaryOp.apply, Value.truthy]
  · rename_i hneg hnot hnn
    refine iff_of_true rfl ?_
    unfold UnaryKeeps
    split
    · simp_all
    · trivial

/-- A built-in function gives what is computed for it. -/
theorem builtinApply_of_builtinValue? {name : Bytes} {x y : Number} (host : Host)
    (h : builtinValue? name x = some y) : builtinApply host name [.number x] = .number y := by
  unfold builtinValue? at h
  unfold builtinApply
  simp only [List.head?_cons, Option.map_some, Option.getD_some, Value.toNumber]
  by_cases habs : name = ascii "abs"
  · rw [if_pos habs] at h ⊢
    rw [Option.some.inj h]
  rw [if_neg habs] at h ⊢
  by_cases hfloor : name = ascii "floor"
  · rw [if_pos hfloor] at h ⊢
    rw [Option.some.inj h]
  rw [if_neg hfloor] at h ⊢
  by_cases hceil : name = ascii "ceil"
  · rw [if_pos hceil] at h ⊢
    rw [Option.some.inj h]
  rw [if_neg hceil] at h ⊢
  obtain ⟨hsqrt, hy⟩ := Option.ite_none_right_eq_some.mp h
  rw [Bool.and_eq_true, decide_eq_true_eq] at hsqrt
  rw [if_pos hsqrt.1, Option.some.inj hy]

theorem eval_simplifyCall (callee : Bytes) (args : List Expr) (builtin : Bool) :
    (Expr.call loc callee args type builtin).eval w calls =
      (simplifyCall loc callee args type builtin).eval w calls := by
  unfold simplifyCall
  split
  · rename_i l x
    cases h : builtinValue? callee x with
    | some value =>
      rw [Expr.eval_call, if_pos rfl, Expr.evalList_cons, Expr.eval_number]
      exact congrArg (·, calls) (builtinApply_of_builtinValue? w.host h)
    | none => rfl
  · rfl

/-! ## Strings -/

/-- Joining neighbouring texts does not change the text of the pieces. -/
theorem evalList_merge (segments : List Segment) (calls : List Call) :
    Segment.evalList w (Segment.merge segments) calls = Segment.evalList w segments calls := by
  induction segments generalizing calls with
  | nil => rfl
  | cons s rest ih =>
    cases s with
    | embedded e => rw [Segment.merge, Segment.evalList_cons, Segment.evalList_cons, ih]
    | text t =>
      have htext : Segment.evalList w (.text t :: rest) calls =
          (t ++ (Segment.evalList w rest calls).1, (Segment.evalList w rest calls).2) := rfl
      rw [Segment.merge, htext, ← ih]
      split
      · rename_i ht
        rw [ht, List.nil_append]
      · split
        · rename_i u more hmore
          rw [hmore]
          change (t ++ u ++ _, _) = (t ++ (u ++ _), _)
          rw [List.append_assoc]
          rfl
        · rfl

theorem eval_interpolate (segments : List Segment) :
    (Expr.interpolate loc segments).eval w calls =
      (.string (Segment.evalList w segments calls).1, (Segment.evalList w segments calls).2) := by
  rw [← evalList_merge]
  unfold Expr.interpolate
  split
  · rename_i h
    rw [h]
    rfl
  · rename_i t h
    rw [h]
    change _ = (Value.string (t ++ []), calls)
    rw [List.append_nil]
    rfl
  · rfl

theorem eval_simplifyString (pieces simplified : List Segment) :
    (simplifyString loc pieces simplified).eval w calls =
      (.string (Segment.evalList w simplified calls).1,
        (Segment.evalList w simplified calls).2) := by
  rcases simplifyString_cases loc pieces simplified with h | h
  · rw [h, Expr.eval_interpolated]
  · rw [h, eval_interpolate]

theorem eval_simplifyEmbedded (value : Expr) :
    (simplifyEmbedded value).eval w calls = (Segment.embedded value).eval w calls := by
  unfold simplifyEmbedded
  split
  · rename_i x h
    change _ = ((value.eval w calls).1.toText w.host, (value.eval w calls).2)
    rw [eval_of_literal? h, Literal.toText_value]
    rfl
  · rfl

end Node

/-! ## Whole expressions -/

section Whole

variable {w : World}

/-- Arguments of which each keeps its value and its calls do so together. -/
theorem evalList_optimize {args : List Expr} {calls : List Call}
    (h : Expr.AlongList w (SameOutcome w) args calls) :
    Expr.evalList w (Expr.optimizeList args) calls = Expr.evalList w args calls := by
  induction args generalizing calls with
  | nil => rfl
  | cons e es ih =>
    have he : e.optimize.eval w calls = e.eval w calls := h.1.self
    rw [Expr.optimizeList, Expr.evalList_cons, Expr.evalList_cons, he, ih h.2]

theorem Segment.eval_optimize {s : Segment} {calls : List Call}
    (h : s.Along w (SameOutcome w) calls) : s.optimize.eval w calls = s.eval w calls := by
  cases s with
  | text => rfl
  | embedded value =>
    have he : value.optimize.eval w calls = value.eval w calls := Expr.Along.self h
    rw [Segment.optimize, eval_simplifyEmbedded, Segment.eval, Segment.eval, he]

theorem Segment.evalList_optimize {segments : List Segment} {calls : List Call}
    (h : Segment.AlongList w (SameOutcome w) segments calls) :
    Segment.evalList w (Segment.optimizeList segments) calls =
      Segment.evalList w segments calls := by
  induction segments generalizing calls with
  | nil => rfl
  | cons s ss ih =>
    rw [Segment.optimizeList, Segment.evalList_cons, Segment.evalList_cons, eval_optimize h.1,
      ih h.2]

/-- An operator whose operands keep their values and calls. -/
theorem eval_binary_optimize {left right : Expr} {op : BinaryOp} {calls : List Call}
    (hl : SameOutcome w left calls)
    (hr : op.decidedBy (left.eval w calls).1 = false → SameOutcome w right (left.eval w calls).2)
    (loc : Location) (type : ValueType) :
    (Expr.binary loc op left.optimize right.optimize type).eval w calls =
      (Expr.binary loc op left right type).eval w calls := by
  unfold SameOutcome at hl hr
  cases hd : op.decidedBy (left.eval w calls).1 with
  | true =>
    rw [Expr.eval_decided w calls loc _ type hd,
      Expr.eval_decided w calls loc _ type (by rw [hl]; exact hd), hl]
  | false =>
    rw [Expr.eval_binary w calls loc _ type hd,
      Expr.eval_binary w calls loc _ type (by rw [hl]; exact hd), hl, hr hd]

mutual

/-- Every node that is evaluated keeps its value and its calls if and only if each is as the rule
taken there asks. -/
theorem Expr.along_sameOutcome_iff : (e : Expr) → (calls : List Call) →
    (e.Along w (SameOutcome w) calls ↔ e.Along w (SiteKeeps w) calls)
  | .number .., _ | .string .., _ | .boolean .., _ | .identifier _, _ => iff_of_true rfl trivial
  | .interpolated loc segments, calls => by
    rw [Expr.Along, Expr.Along, ← Segment.alongList_sameOutcome_iff segments calls]
    refine and_congr_left fun hs => iff_of_true ?_ trivial
    rw [SameOutcome, Expr.optimize, eval_simplifyString, Segment.evalList_optimize hs]
    rfl
  | .binary loc op left right type, calls => by
    rw [Expr.Along, Expr.Along, ← left.along_sameOutcome_iff calls,
      ← right.along_sameOutcome_iff (left.eval w calls).2]
    refine and_congr_left fun ⟨hl, hr⟩ => ?_
    rw [SameOutcome, ← eval_binary_optimize hl.self (fun hd => (hr hd).self), eq_comm,
      Expr.optimize]
    exact eval_simplified_iff (simplifyBinary_simplifies ..)
  | .compare loc op left right, calls => by
    rw [Expr.Along, Expr.Along, ← left.along_sameOutcome_iff calls,
      ← right.along_sameOutcome_iff (left.eval w calls).2]
    refine and_congr_left fun ⟨hl, hr⟩ => ?_
    have hl := hl.self
    have hr := hr.self
    unfold SameOutcome at hl hr
    have hsame : (Expr.compare loc op left right).eval w calls =
        (Expr.compare loc op left.optimize right.optimize).eval w calls := by
      rw [Expr.eval_compare, Expr.eval_compare, hl, hr]
    rw [SameOutcome, hsame, eq_comm, Expr.optimize]
    exact eval_simplifyCompare_iff op
  | .unary loc op operand type, calls => by
    rw [Expr.Along, Expr.Along, ← operand.along_sameOutcome_iff calls]
    refine and_congr_left fun h => ?_
    have h := h.self
    unfold SameOutcome at h
    have hsame : (Expr.unary loc op operand type).eval w calls =
        (Expr.unary loc op operand.optimize type).eval w calls := by
      rw [Expr.eval_unary, Expr.eval_unary, h]
    rw [SameOutcome, hsame, eq_comm, Expr.optimize]
    exact eval_simplifyUnary_iff op
  | .call loc callee args type builtin, calls => by
    rw [Expr.Along, Expr.Along, ← Expr.alongList_sameOutcome_iff args calls]
    refine and_congr_left fun hs => iff_of_true ?_ trivial
    rw [SameOutcome, Expr.optimize, ← eval_simplifyCall, Expr.eval_call, Expr.eval_call,
      evalList_optimize hs]
  | .range loc bound, calls => by
    rw [Expr.Along, Expr.Along, ← bound.along_sameOutcome_iff calls]
    refine and_congr_left fun hs => iff_of_true ?_ trivial
    exact hs.self

theorem Expr.alongList_sameOutcome_iff : (es : List Expr) → (calls : List Call) →
    (Expr.AlongList w (SameOutcome w) es calls ↔ Expr.AlongList w (SiteKeeps w) es calls)
  | [], _ => Iff.rfl
  | e :: es, calls => by
    rw [Expr.AlongList, Expr.AlongList, e.along_sameOutcome_iff calls,
      Expr.alongList_sameOutcome_iff es (e.eval w calls).2]

theorem Segment.along_sameOutcome_iff : (s : Segment) → (calls : List Call) →
    (s.Along w (SameOutcome w) calls ↔ s.Along w (SiteKeeps w) calls)
  | .text _, _ => Iff.rfl
  | .embedded value, calls => value.along_sameOutcome_iff calls

theorem Segment.alongList_sameOutcome_iff : (ss : List Segment) → (calls : List Call) →
    (Segment.AlongList w (SameOutcome w) ss calls ↔ Segment.AlongList w (SiteKeeps w) ss calls)
  | [], _ => Iff.rfl
  | s :: ss, calls => by
    rw [Segment.AlongList, Segment.AlongList, s.along_sameOutcome_iff calls,
      Segment.alongList_sameOutcome_iff ss (s.eval w calls).2]

end

end Whole

end Roar
