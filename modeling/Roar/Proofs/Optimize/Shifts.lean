import Mathlib.Logic.Function.Iterate
import Roar.Proofs.Compile.Diagnostics
import Roar.Proofs.Optimize.Arithmetic
import Roar.Proofs.Optimize.Nodes
import Roar.Proofs.Typing.Operators

/-!
# Where shifts come from

No source has a shift. A pass makes one in the place of a product or a quotient by a literal power
of two (`Expr.Scales`), and a shift that is there already stays as it is but for what is shifted: every
shift of a simplified program is one of these two (`ShiftFrom`, `Program.shiftFrom_optimize`).

After any number of passes a shift therefore stands for a product or a quotient that one of the passes
has found, by a power of two whose exponent is the count of the shift (`Expr.ShiftedInto`,
`Program.shiftedInto_iterate`).
-/

namespace Roar

open Optimize

/-- The expression is a shift. -/
def Expr.isShift (e : Expr) : Bool := e.operator?.any BinaryOp.isShift

theorem isShift_of_unshifted {nodes : List Expr} (h : Unshifted (operatorsOf nodes)) :
    ∀ e ∈ nodes, e.isShift = false := by
  intro e he
  unfold Expr.isShift
  cases hop : e.operator? with
  | none => rfl
  | some op => exact h op (List.mem_filterMap.mpr ⟨e, he, hop⟩)

/-- A product or a quotient: the shift that can take its place, the operand that would be shifted,
and the multiplier or divisor. -/
inductive Expr.Scales : Expr → BinaryOp → Expr → Expr → Prop
  | timesRight {loc : Location} {rest factor : Expr} {type : ValueType} :
      Scales (.binary loc .mul rest factor type) .shl rest factor
  | timesLeft {loc : Location} {rest factor : Expr} {type : ValueType} :
      Scales (.binary loc .mul factor rest type) .shl rest factor
  | over {loc : Location} {rest factor : Expr} {type : ValueType} :
      Scales (.binary loc .div rest factor type) .shr rest factor

/-! ## One pass -/

/-- What a pass makes shifts of: a shift among the nodes, or a product or a quotient whose multiplier
or divisor is simplified to a power of two. -/
inductive ShiftFrom (nodes : List Expr) : Expr → Prop
  | kept {loc : Location} {op : BinaryOp} {left right : Expr} {type : ValueType}
      (hn : .binary loc op left right type ∈ nodes) (hop : op.isShift = true) :
      ShiftFrom nodes (.binary loc op left.optimize right.optimize type)
  | made {n rest factor : Expr} {op : BinaryOp} {place : Location} {power : Number} {k : ℕ}
      (hn : n ∈ nodes) (hscales : n.Scales op rest factor)
      (hfactor : factor.optimize = .number place power) (hpower : power.powerOfTwo? = some k) :
      ShiftFrom nodes (.binary n.loc op rest.optimize (.number place (.ofNat k)) .number)

section Pass

variable {nodes : List Expr} {loc : Location} {left right s : Expr} {type : ValueType}

theorem isShift_interpolate (loc : Location) (ss : List Segment) :
    (Expr.interpolate loc ss).isShift = false := by
  unfold Expr.interpolate
  split <;> rfl

theorem isShift_simplifyString (loc : Location) (pieces simplified : List Segment) :
    (simplifyString loc pieces simplified).isShift = false := by
  obtain h | h := simplifyString_cases loc pieces simplified
  · rw [h]
    rfl
  · rw [h, isShift_interpolate]

theorem isShift_simplifyCompare (loc : Location) (op : CompareOp) (left right : Expr) :
    (simplifyCompare loc op left right).isShift = false := by
  obtain ⟨b, h⟩ | ⟨h, -⟩ := simplifyCompare_cases loc op left right
  · rw [h]
    rfl
  · rw [h]
    rfl

theorem isShift_simplifyCall (loc : Location) (callee : Bytes) (args : List Expr)
    (type : ValueType) (builtin : Bool) :
    (simplifyCall loc callee args type builtin).isShift = false := by
  obtain ⟨_, _, value, -, -, -, h⟩ | ⟨h, -⟩ := simplifyCall_cases loc callee args type builtin
  · rw [h]
    rfl
  · rw [h]
    rfl

/-- Only an operand can be a shift where two truth values are decided. -/
theorem shiftFrom_decideWith {other : Expr} {neutral value : Bool}
    (h : other.isShift = true → ShiftFrom nodes other)
    (hs : (decideWith loc neutral value other).isShift = true) :
    ShiftFrom nodes (decideWith loc neutral value other) := by
  unfold decideWith at hs ⊢
  split at hs
  · rename_i hv
    rw [if_pos hv]
    exact h hs
  · cases hs

/-- The root of a simplified operation, if its operands are those of a node. -/
theorem Optimize.Simplifies.shiftFrom {op : BinaryOp} {rule : Rule} {l r : Expr}
    (h : Simplifies loc op l r type rule s) (hn : .binary loc op left right type ∈ nodes)
    (hl : left.optimize = l) (hr : right.optimize = r)
    (hleft : l.isShift = true → ShiftFrom nodes l) (hright : r.isShift = true → ShiftFrom nodes r)
    (hs : s.isShift = true) : ShiftFrom nodes s := by
  cases h with
  | compute | join | nothingRight | nothingLeft | regroup => cases hs
  | truthLeft => exact shiftFrom_decideWith hright hs
  | truthRight => exact shiftFrom_decideWith hleft hs
  | zeroRight | oneRight => exact hleft hs
  | zeroLeft | oneLeft => exact hright hs
  | shlRight hz => exact hl ▸ .made hn .timesRight hr hz
  | shlLeft hz => exact hr ▸ .made hn .timesLeft hl hz
  | shr hz => exact hl ▸ .made hn .over hr hz
  | stay => exact hl ▸ hr ▸ .kept hn hs

/-- A negation that goes leaves what was negated. -/
theorem shiftFrom_simplifyUnary {op : UnaryOp} {operand : Expr}
    (h : ∀ n ∈ operand.nodes, n.isShift = true → ShiftFrom nodes n)
    (hs : (simplifyUnary loc op operand type).isShift = true) :
    ShiftFrom nodes (simplifyUnary loc op operand type) := by
  unfold simplifyUnary at hs ⊢
  split at hs
  · cases hs
  · cases hs
  · exact h _ (List.mem_cons_of_mem _ (Expr.self_mem_nodes _)) hs
  · cases hs

mutual

theorem Expr.shiftFrom_optimize : (e : Expr) → e.nodes ⊆ nodes →
    ∀ n ∈ e.optimize.nodes, n.isShift = true → ShiftFrom nodes n
  | .number .., _ | .string .., _ | .boolean .., _ | .identifier _, _ =>
    List.forall_mem_singleton.mpr fun hs => by cases hs
  | .interpolated loc segments, he =>
    forall_nodes_simplifyString
      (Segment.shiftFrom_optimizeList segments (List.cons_subset.mp he).2) fun hs => by
        rw [isShift_simplifyString] at hs
        cases hs
  | .binary loc op left right type, he => by
    obtain ⟨hn, hparts⟩ := List.cons_subset.mp he
    obtain ⟨hl, hr⟩ := List.append_subset.mp hparts
    have hleft := left.shiftFrom_optimize hl
    have hright := right.shiftFrom_optimize hr
    have hsimplifies := simplifyBinary_simplifies loc op left.optimize right.optimize type
    exact hsimplifies.forall_nodes (fun _ _ hs => by cases hs) hleft hright
      (hsimplifies.shiftFrom hn rfl rfl (hleft _ (Expr.self_mem_nodes _))
        (hright _ (Expr.self_mem_nodes _)))
  | .compare loc op left right, he => by
    obtain ⟨hl, hr⟩ := List.append_subset.mp (List.cons_subset.mp he).2
    refine forall_nodes_simplifyCompare (left.shiftFrom_optimize hl)
      (right.shiftFrom_optimize hr) fun hs => ?_
    rw [isShift_simplifyCompare] at hs
    cases hs
  | .unary loc op operand type, he =>
    have hoperand := operand.shiftFrom_optimize (List.cons_subset.mp he).2
    forall_nodes_simplifyUnary hoperand (shiftFrom_simplifyUnary hoperand)
  | .call loc callee args type builtin, he =>
    forall_nodes_simplifyCall (Expr.shiftFrom_optimizeList args (List.cons_subset.mp he).2)
      fun hs => by
        rw [isShift_simplifyCall] at hs
        cases hs
  | .range _ bound, he =>
    List.forall_mem_cons.mpr
      ⟨fun hs => (by cases hs), bound.shiftFrom_optimize (List.cons_subset.mp he).2⟩

theorem Expr.shiftFrom_optimizeList : (es : List Expr) → Expr.nodesList es ⊆ nodes →
    ∀ n ∈ Expr.nodesList (Expr.optimizeList es), n.isShift = true → ShiftFrom nodes n
  | [], _ => List.forall_mem_nil _
  | e :: es, h =>
    have ⟨he, hes⟩ := List.append_subset.mp h
    List.forall_mem_append.mpr ⟨e.shiftFrom_optimize he, Expr.shiftFrom_optimizeList es hes⟩

theorem Segment.shiftFrom_optimizeList : (ss : List Segment) → Segment.nodesList ss ⊆ nodes →
    ∀ n ∈ Segment.nodesList (Segment.optimizeList ss), n.isShift = true → ShiftFrom nodes n
  | [], _ => List.forall_mem_nil _
  | .text _ :: ss, h => Segment.shiftFrom_optimizeList ss h
  | .embedded e :: ss, h =>
    have ⟨he, hss⟩ := List.append_subset.mp h
    forall_nodes_simplifyEmbedded (e.shiftFrom_optimize he) (Segment.shiftFrom_optimizeList ss hss)

end

end Pass

theorem Program.shiftFrom_optimize (p : Program) :
    ∀ n ∈ p.optimize.nodes, n.isShift = true → ShiftFrom p.nodes n :=
  forall_nodes_optimize_within ⟨fun e he => e.shiftFrom_optimize he, fun _ hs => (by cases hs)⟩

/-! ## Any number of passes -/

/-- The product or quotient has become a shift by `k`, as its multiplier or divisor is exactly
`2 ^ k`, and what is shifted has been simplified so many times since. -/
inductive Expr.ShiftedInto (n : Expr) (k age : ℕ) : Expr → Prop
  | intro {op : BinaryOp} {rest factor : Expr} {place : Location} {power count : Number}
      (scales : n.Scales op rest factor) (literal : factor.optimize = .number place power)
      (isPower : power.toRat? = some (2 ^ k)) (isCount : count.toRat? = some (k : ℚ)) :
      ShiftedInto n k age
        (.binary n.loc op (Expr.optimize^[age] rest) (.number place count) .number)

/-- A pass over a shift simplifies what is shifted, and nothing else. -/
theorem Expr.ShiftedInto.optimize {n left right : Expr} {k age : ℕ} {loc : Location}
    {op : BinaryOp} {type : ValueType} (h : n.ShiftedInto k age (.binary loc op left right type)) :
    n.ShiftedInto k (age + 1) (.binary loc op left.optimize right.optimize type) := by
  cases h with
  | intro scales literal isPower isCount =>
    rw [← Function.iterate_succ_apply' Expr.optimize]
    exact .intro scales literal isPower isCount

theorem Expr.shiftedInto_of_made {n rest factor : Expr} {op : BinaryOp} {place : Location}
    {power : Number} {k : ℕ} (hscales : n.Scales op rest factor)
    (hfactor : factor.optimize = .number place power) (hpower : power.powerOfTwo? = some k) :
    n.ShiftedInto k 1 (.binary n.loc op rest.optimize (.number place (.ofNat k)) .number) := by
  obtain ⟨hk, hexact⟩ := toRat?_of_powerOfTwo? hpower
  have hcount : (Number.ofNat k).toRat? = some (k : ℚ) := by
    rw [Number.toRat?_ofNat (by omega), Int.cast_natCast]
  exact .intro hscales hfactor hexact hcount

/-- If a program has no shift, then each shift after some passes was made by one of them. -/
theorem Program.shiftedInto_iterate {p : Program} (hp : ∀ e ∈ p.nodes, e.isShift = false)
    (passes : ℕ) : ∀ e ∈ (Program.optimize^[passes] p).nodes, e.isShift = true →
      ∃ k, 1 ≤ k ∧ k ≤ 30 ∧ ∃ before < passes, ∃ n ∈ (Program.optimize^[before] p).nodes,
        n.ShiftedInto k (passes - before) e := by
  induction passes with
  | zero =>
    intro e he hs
    rw [hp e he] at hs
    cases hs
  | succ passes ih =>
    intro e he hs
    rw [Function.iterate_succ_apply'] at he
    cases Program.shiftFrom_optimize _ e he hs with
    | kept hn hop =>
      obtain ⟨k, hlow, hhigh, before, hbefore, n, hmem, hshifted⟩ := ih _ hn hop
      refine ⟨k, hlow, hhigh, before, by omega, n, hmem, ?_⟩
      rw [Nat.sub_add_comm (by omega)]
      exact hshifted.optimize
    | made hn hscales hfactor hpower =>
      obtain ⟨hlow, hhigh, -⟩ := powerOfTwo?_eq_some hpower
      refine ⟨_, hlow, hhigh, passes, by omega, _, hn, ?_⟩
      rw [Nat.add_sub_cancel_left]
      exact Expr.shiftedInto_of_made hscales hfactor hpower

/-- Shifts come only from the passes, and stay in range. A program that parsing and analysis accept
has none. After any number of passes each shift is of type number and has a literal on its right, an
integer `k` from 1 to 30: it stands for a product or a quotient that one of the passes has replaced, by
a multiplier or divisor of exactly `2 ^ k`. -/
theorem shifts_in_range {source : Bytes} {file : ℕ} {p : Program}
    (h : analyzeSource source file = .ok p) :
    (∀ e ∈ p.nodes, e.isShift = false) ∧
    ∀ passes, ∀ e ∈ (Program.optimize^[passes] p).nodes, e.isShift = true →
      ∃ k : ℕ, ∃ loc op left place count,
        e = .binary loc op left (.number place count) .number ∧
        count.toRat? = some (k : ℚ) ∧ 1 ≤ k ∧ k ≤ 30 ∧
        ∃ before < passes, ∃ n ∈ (Program.optimize^[before] p).nodes,
          n.ShiftedInto k (passes - before) e := by
  obtain ⟨tree, hparse, hanalyze⟩ := analyzeSource_eq_ok.mp h
  have hp := isShift_of_unshifted (unshifted_of_analyze hparse hanalyze)
  refine ⟨hp, fun passes e he hs => ?_⟩
  obtain ⟨k, hlow, hhigh, before, hbefore, n, hn, hshifted⟩ :=
    Program.shiftedInto_iterate hp passes e he hs
  cases hshifted with
  | intro scales literal isPower isCount =>
    exact ⟨k, _, _, _, _, _, rfl, isCount, hlow, hhigh, before, hbefore, n, hn,
      .intro scales literal isPower isCount⟩

/-- Products by `2 ^ 30` and `2 ^ 31`, and a quotient by a sum. -/
def scalingSource : Bytes :=
  ascii "y = 3\nroar y * 1073741824\nroar y * 2147483648\nroar 0 + y / (4 + 4)\n"

/-- Two passes make shifts by 30 and by 3 of it, and leave the product by `2 ^ 31`. -/
theorem shifts_in_range_scalingSource :
    ∃ p, analyzeSource scalingSource 0 = .ok p ∧
      ((Program.optimize^[2] p).nodes.filter Expr.isShift).length = 2 ∧
      ∀ e ∈ (Program.optimize^[2] p).nodes, e.isShift = true →
        ∃ k : ℕ, 1 ≤ k ∧ k ≤ 30 ∧ ∃ before < 2, ∃ n ∈ (Program.optimize^[before] p).nodes,
          n.ShiftedInto k (2 - before) e := by
  have hshifts : (analyzeSource scalingSource 0).toOption.any fun p =>
      (p.optimize.optimize.nodes.filter Expr.isShift).length == 2 := by
    decide +kernel
  cases hp : analyzeSource scalingSource 0 with
  | error d =>
    rw [hp] at hshifts
    cases hshifts
  | ok p =>
    rw [hp] at hshifts
    refine ⟨p, rfl, beq_iff_eq.mp hshifts, fun e he hs => ?_⟩
    obtain ⟨k, -, -, -, -, -, -, -, hlow, hhigh, hbefore⟩ := (shifts_in_range hp).2 2 e he hs
    exact ⟨k, hlow, hhigh, hbefore⟩

end Roar
