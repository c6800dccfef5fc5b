import Roar.Analysis.Resolve
import Roar.Proofs.Optimize.Outcome

/-!
# The calls that a simplified expression makes

A call is lost or added where a rule leaves out an operand that makes one, where the left operand of
`and` or `or` decides differently once it is simplified, or where an argument of a call gets another
value. `CallsSite` says this for each node, and `optimize_calls_iff` that it is the condition for
every node that is evaluated to keep its calls, whatever becomes of its value.
-/

namespace Roar

open Optimize

/-- The simplified expression makes the same calls. -/
def SameCalls (w : World) (e : Expr) (calls : List Call) : Prop :=
  (e.optimize.eval w calls).2 = (e.eval w calls).2

/-! ## What the rules ask for -/

/-- What a rule asks of the operands for their calls to be kept: an operand that is left out makes
none, and the left operand of `and` and `or` decides as before, unless there are no calls on the
right. -/
def RuleKeepsCalls (w : World) (op : BinaryOp) (rule : Rule) (left right : Expr)
    (calls : List Call) : Prop :=
  let between := (left.eval w calls).2
  match rule with
  | .nothing => (right.eval w between).2 = calls
  | .truthRight => boolean? right.optimize = some (op == .and) ∨ between = calls
  | .truthLeft | .stay =>
    op.decidedBy (left.optimize.eval w calls).1 = op.decidedBy (left.eval w calls).1 ∨
      (right.optimize.eval w between).2 = between
  | _ => True

/-- The operands of a node are as the rule taken for it asks, and the arguments of a call keep their
values. -/
def CallsSite (w : World) (e : Expr) (calls : List Call) : Prop :=
  match e with
  | .binary loc op left right type =>
    RuleKeepsCalls w op (ruleOf loc op left.optimize right.optimize type) left right calls
  | .compare _ op left right =>
    literalOutcome? op left.optimize right.optimize = none →
      left.optimize.same right.optimize = true → (right.eval w (left.eval w calls).2).2 = calls
  | .call _ _ args _ false =>
    (Expr.evalList w (Expr.optimizeList args) calls).1 = (Expr.evalList w args calls).1
  | _ => True

/-! ## One node -/

section Node

variable {w : World} {calls : List Call} {loc : Location} {left right s : Expr} {type : ValueType}
  {op : BinaryOp}

/-- The calls of an operator that always evaluates both operands. -/
theorem calls_arithmetic (hop : op ≠ .and ∧ op ≠ .or) (hl : SameCalls w left calls)
    (hr : op.decidedBy (left.eval w calls).1 = false → SameCalls w right (left.eval w calls).2) :
    ((Expr.binary loc op left right type).eval w calls).2 =
      (right.optimize.eval w (left.optimize.eval w calls).2).2 := by
  have hd := op.decidedBy_eq_false hop (left.eval w calls).1
  rw [Expr.eval_binary w calls loc right type hd, hl]
  exact (hr hd).symm

/-- The operands are simplified, and the operator stays. -/
theorem calls_operands_iff (hl : SameCalls w left calls)
    (hr : op.decidedBy (left.eval w calls).1 = false → SameCalls w right (left.eval w calls).2) :
    ((Expr.binary loc op left.optimize right.optimize type).eval w calls).2 =
        ((Expr.binary loc op left right type).eval w calls).2 ↔
      RuleKeepsCalls w op .stay left right calls := by
  unfold SameCalls at hl hr
  unfold RuleKeepsCalls
  cases hd : op.decidedBy (left.eval w calls).1 with
  | true =>
    rw [Expr.eval_decided w calls loc right type hd]
    cases hd' : op.decidedBy (left.optimize.eval w calls).1 with
    | true =>
      rw [Expr.eval_decided w calls loc _ type hd', hl]
      simp
    | false =>
      rw [Expr.eval_binary w calls loc _ type hd', hl]
      simp
  | false =>
    rw [Expr.eval_binary w calls loc right type hd, ← hr hd]
    cases hd' : op.decidedBy (left.optimize.eval w calls).1 with
    | true =>
      rw [Expr.eval_decided w calls loc _ type hd', hl]
      simp [eq_comm]
    | false =>
      rw [Expr.eval_binary w calls loc _ type hd', hl]
      simp

/-- A truth value on the right takes the place of the operator, or leaves its left operand. -/
theorem calls_truthRight_iff {lb : Location} {b : Bool} (hR : right.optimize = .boolean lb b)
    (hl : SameCalls w left calls)
    (hr : op.decidedBy (left.eval w calls).1 = false → SameCalls w right (left.eval w calls).2) :
    ((decideWith loc (op == .and) b left.optimize).eval w calls).2 =
        ((Expr.binary loc op left right type).eval w calls).2 ↔
      RuleKeepsCalls w op .truthRight left right calls := by
  unfold SameCalls at hl hr
  have hsource : ((Expr.binary loc op left right type).eval w calls).2 = (left.eval w calls).2 := by
    cases hd : op.decidedBy (left.eval w calls).1 with
    | true => rw [Expr.eval_decided w calls loc right type hd]
    | false => rw [Expr.eval_binary w calls loc right type hd, ← hr hd, hR, Expr.eval_boolean]
  rw [hsource, RuleKeepsCalls, hR, decideWith]
  by_cases hb : b = (op == .and)
  · rw [if_pos (beq_iff_eq.mpr hb)]
    exact iff_of_true hl (.inl (congrArg some hb))
  · rw [if_neg fun h => hb (beq_iff_eq.mp h), Expr.eval_boolean]
    have hne : boolean? (.boolean lb b) ≠ some (op == .and) := fun h => hb (Option.some.inj h)
    exact eq_comm.trans (or_iff_right hne).symm

/-- A rule keeps the calls of an operator if and only if its operands are as it asks. -/
theorem calls_simplified_iff {rule : Rule}
    (hs : Simplifies loc op left.optimize right.optimize type rule s)
    (hl : SameCalls w left calls)
    (hr : op.decidedBy (left.eval w calls).1 = false → SameCalls w right (left.eval w calls).2) :
    (s.eval w calls).2 = ((Expr.binary loc op left right type).eval w calls).2 ↔
      RuleKeepsCalls w op rule left right calls := by
  generalize hL : left.optimize = L at hs
  generalize hR : right.optimize = R at hs
  cases hs with
  | compute h =>
    have hop : op ≠ .and ∧ op ≠ .or := by constructor <;> rintro rfl <;> cases h
    rw [calls_arithmetic hop hl hr, hL, hR, Expr.eval_number, Expr.eval_number, Expr.eval_number]
    exact iff_of_true rfl trivial
  | join hx hy =>
    rw [calls_arithmetic (by decide) hl hr, hL, hR, eval_of_literal? hx, eval_of_literal? hy,
      Expr.eval_string]
    exact iff_of_true rfl trivial
  | truthLeft hop =>
    rw [← eval_truthLeft hop, ← hL, ← hR]
    exact calls_operands_iff hl hr
  | truthRight =>
    rw [← hL]
    exact calls_truthRight_iff hR hl hr
  | regroup =>
    rw [calls_arithmetic (by decide) hl hr, hL, hR, Expr.eval_number,
      Expr.eval_binary w calls _ _ _ rfl, Expr.eval_binary w calls _ _ _ rfl]
    exact iff_of_true rfl trivial
  | nothingRight | nothingLeft =>
    rw [Expr.eval_binary w calls loc right type rfl, Expr.eval_number]
    exact eq_comm
  | zeroRight | zeroLeft | oneRight | oneLeft =>
    rw [calls_arithmetic (by decide) hl hr, hL, hR, Expr.eval_number]
    exact iff_of_true rfl trivial
  | shlRight | shlLeft | shr =>
    rw [calls_arithmetic (by decide) hl hr, hL, hR, Expr.eval_number,
      Expr.eval_binary w calls _ _ _ rfl, Expr.eval_number]
    exact iff_of_true rfl trivial
  | stay =>
    rw [← hL, ← hR]
    exact calls_operands_iff hl hr

theorem calls_simplifyCompare_iff {op : CompareOp} (hl : SameCalls w left calls)
    (hr : SameCalls w right (left.eval w calls).2) :
    SameCalls w (.compare loc op left right) calls ↔
      CallsSite w (.compare loc op left right) calls := by
  unfold SameCalls at hl hr ⊢
  have hsource : ((Expr.compare loc op left right).eval w calls).2 =
      ((Expr.compare loc op left.optimize right.optimize).eval w calls).2 := by
    rw [Expr.eval_compare, Expr.eval_compare, hl, hr]
  rw [Expr.optimize, simplifyCompare_eq, CallsSite]
  cases h : literalOutcome? op left.optimize right.optimize with
  | some outcome =>
    rw [hsource]
    refine iff_of_true ?_ (by simp)
    unfold literalOutcome? at h
    split at h
    · rename_i x y hx hy
      rw [Expr.eval_compare, eval_of_literal? hx, eval_of_literal? hy]
      rfl
    · cases h
  | none =>
    by_cases hs : left.optimize.same right.optimize
    · simp [Expr.eval_compare, hs, eq_comm]
    · simp [hs, hsource]

theorem calls_simplifyUnary (op : UnaryOp) (operand : Expr) :
    ((simplifyUnary loc op operand type).eval w calls).2 = (operand.eval w calls).2 := by
  unfold simplifyUnary
  split <;> rfl

end Node

/-! ## Whole expressions -/

section Whole

variable {w : World}

theorem calls_optimizeList {args : List Expr} {calls : List Call}
    (h : Expr.AlongList w (SameCalls w) args calls) :
    (Expr.evalList w (Expr.optimizeList args) calls).2 = (Expr.evalList w args calls).2 := by
  induction args generalizing calls with
  | nil => rfl
  | cons e es ih =>
    have he : (e.optimize.eval w calls).2 = (e.eval w calls).2 := h.1.self
    rw [Expr.optimizeList, Expr.evalList_cons, Expr.evalList_cons, he, ih h.2]

theorem Segment.calls_optimizeList {segments : List Segment} {calls : List Call}
    (h : Segment.AlongList w (SameCalls w) segments calls) :
    (Segment.evalList w (Segment.optimizeList segments) calls).2 =
      (Segment.evalList w segments calls).2 := by
  induction segments generalizing calls with
  | nil => rfl
  | cons s ss ih =>
    have hs : (s.optimize.eval w calls).2 = (s.eval w calls).2 := by
      cases s with
      | text => rfl
      | embedded value =>
        rw [Segment.optimize, eval_simplifyEmbedded]
        exact Expr.Along.self h.1
    rw [Segment.optimizeList, Segment.evalList_cons, Segment.evalList_cons, hs, ih h.2]

mutual

/-- Every node that is evaluated keeps its calls if and only if each is as the rule taken there
asks. -/
theorem Expr.along_sameCalls_iff : (e : Expr) → (calls : List Call) →
    (e.Along w (SameCalls w) calls ↔ e.Along w (CallsSite w) calls)
  | .number .., _ | .string .., _ | .boolean .., _ | .identifier _, _ => iff_of_true rfl trivial
  | .interpolated loc segments, calls => by
    rw [Expr.Along, Expr.Along, ← Segment.alongList_sameCalls_iff segments calls]
    refine and_congr_left fun hs => iff_of_true ?_ trivial
    rw [SameCalls, Expr.optimize, eval_simplifyString, Segment.calls_optimizeList hs]
    rfl
  | .binary loc op left right type, calls => by
    rw [Expr.Along, Expr.Along, ← left.along_sameCalls_iff calls,
      ← right.along_sameCalls_iff (left.eval w calls).2]
    refine and_congr_left fun ⟨hl, hr⟩ => ?_
    rw [SameCalls, Expr.optimize]
    exact calls_simplified_iff (simplifyBinary_simplifies ..) hl.self fun hd => (hr hd).self
  | .compare loc op left right, calls => by
    rw [Expr.Along, Expr.Along, ← left.along_sameCalls_iff calls,
      ← right.along_sameCalls_iff (left.eval w calls).2]
    exact and_congr_left fun ⟨hl, hr⟩ => calls_simplifyCompare_iff hl.self hr.self
  | .unary loc op operand type, calls => by
    rw [Expr.Along, Expr.Along, ← operand.along_sameCalls_iff calls]
    refine and_congr_left fun h => iff_of_true ?_ trivial
    rw [SameCalls, Expr.optimize, calls_simplifyUnary, Expr.eval_unary]
    exact h.self
  | .call loc callee args type true, calls => by
    rw [Expr.Along, Expr.Along, ← Expr.alongList_sameCalls_iff args calls]
    refine and_congr_left fun hs => iff_of_true ?_ trivial
    rw [SameCalls, Expr.optimize, ← eval_simplifyCall]
    exact calls_optimizeList hs
  | .call loc callee args type false, calls => by
    rw [Expr.Along, Expr.Along, ← Expr.alongList_sameCalls_iff args calls]
    refine and_congr_left fun hs => ?_
    rw [SameCalls, Expr.optimize, ← eval_simplifyCall]
    -- the calls before it are the same, so only the arguments of the call itself are left
    simp [Expr.eval_call, CallsSite, calls_optimizeList hs]
  | .range loc bound, calls => by
    rw [Expr.Along, Expr.Along, ← bound.along_sameCalls_iff calls]
    refine and_congr_left fun hs => iff_of_true ?_ trivial
    exact hs.self

theorem Expr.alongList_sameCalls_iff : (es : List Expr) → (calls : List Call) →
    (Expr.AlongList w (SameCalls w) es calls ↔ Expr.AlongList w (CallsSite w) es calls)
  | [], _ => Iff.rfl
  | e :: es, calls => by
    rw [Expr.AlongList, Expr.AlongList, e.along_sameCalls_iff calls,
      Expr.alongList_sameCalls_iff es (e.eval w calls).2]

theorem Segment.along_sameCalls_iff : (s : Segment) → (calls : List Call) →
    (s.Along w (SameCalls w) calls ↔ s.Along w (CallsSite w) calls)
  | .text _, _ => Iff.rfl
  | .embedded value, calls => value.along_sameCalls_iff calls

theorem Segment.alongList_sameCalls_iff : (ss : List Segment) → (calls : List Call) →
    (Segment.AlongList w (SameCalls w) ss calls ↔ Segment.AlongList w (CallsSite w) ss calls)
  | [], _ => Iff.rfl
  | s :: ss, calls => by
    rw [Segment.AlongList, Segment.AlongList, s.along_sameCalls_iff calls,
      Segment.alongList_sameCalls_iff ss (s.eval w calls).2]

end

/-- Where each node that is evaluated is as the rule taken there asks, the simplified expression
makes the same calls, in the same order and with the same arguments. These conditions are the ones
for each node that is evaluated to keep its calls; those of `SiteKeeps` are the ones for each to keep
its value as well, as the arguments of a call must. -/
theorem optimize_calls_iff (w : World) (e : Expr) (calls : List Call) :
    (e.Along w (CallsSite w) calls → (e.optimize.eval w calls).2 = (e.eval w calls).2) ∧
      (e.Along w (SameCalls w) calls ↔ e.Along w (CallsSite w) calls) ∧
      (e.Along w (SameOutcome w) calls ↔ e.Along w (SiteKeeps w) calls) := by
  have hiff := e.along_sameCalls_iff (w := w) calls
  exact ⟨fun hok => (hiff.mpr hok).self, hiff, e.along_sameOutcome_iff calls⟩

/-- A function `f` and a print of `f(1) * 0`. -/
def productTree : Grammar.Tree :=
  ⟨0,
    [.function {} (ascii "f") [⟨ascii "a", {}⟩] {} [.serve {} (.identifier {} (ascii "a"))],
      .print {}
        (.binary {} .mul (.call {} (ascii "f") [.number {} (.ofNat 1) (ascii "1")])
          (.number {} (.zero false) (ascii "0")))]⟩

/-- A product by zero becomes zero, and the call in its other operand is not made. -/
theorem product_drops_call :
    ¬ ∀ (tree : Grammar.Tree) (p : Program) (loc : Location) (e : Expr), analyze tree = .ok p →
      .print loc e ∈ p.statements → ∀ (w : World) (calls : List Call),
        (e.optimize.eval w calls).2 = (e.eval w calls).2 := by
  intro h
  have hcalls := h productTree _ {} _ rfl (.tail _ (.head _)) World.bare []
  revert hcalls
  decide +kernel

end Whole

end Roar
