import Roar.Program.Basic
import Roar.Proofs.Semantics.Value

/-!
# Evaluation of expressions

`Expr.eval` evaluates an expression from left to right. The right operand of `and` and `or` is left
out where the left one decides. What a function of the program does is left open: the answer to a
call may depend on all calls made by then, and an evaluation gives the calls that it makes along
with its value, the latest first.
-/

namespace Roar

/-- A call of a function of the program. -/
structure Call where
  callee : Bytes
  args : List Value
deriving DecidableEq

/-- What an evaluation takes from outside: the open conversions, the values of the names, and the
answer to the latest of some calls. -/
structure World where
  host : Host
  values : Bytes → Value
  answer : List Call → Value

/-- Surroundings in which texts are no numbers and no call has an answer. -/
def World.bare : World where
  host := ⟨fun _ => .nan, fun name => name⟩
  values := fun _ => .undefined
  answer := fun _ => .undefined

/-- The left operand decides what the operator gives. -/
def BinaryOp.decidedBy (op : BinaryOp) (v : Value) : Bool :=
  match op with
  | .and => !v.truthy
  | .or => v.truthy
  | _ => false

theorem BinaryOp.decidedBy_eq_false {op : BinaryOp} (hop : op ≠ .and ∧ op ≠ .or) (v : Value) :
    op.decidedBy v = false := by
  cases op <;> simp_all [BinaryOp.decidedBy]

mutual

/-- The value of an expression after some calls, with the calls made by then. -/
def Expr.eval (w : World) : Expr → List Call → Value × List Call
  | .number _ value, calls => (.number value, calls)
  | .string _ value, calls => (.string value, calls)
  | .interpolated _ segments, calls =>
    let (text, calls) := Segment.evalList w segments calls
    (.string text, calls)
  | .boolean _ value, calls => (.boolean value, calls)
  | .identifier id, calls => (w.values id.name, calls)
  | .binary _ op left right _, calls =>
    let (v, calls) := left.eval w calls
    if op.decidedBy v then (v, calls)
    else
      let (u, calls) := right.eval w calls
      (op.apply w.host v u, calls)
  | .compare _ op left right, calls =>
    let (v, calls) := left.eval w calls
    let (u, calls) := right.eval w calls
    (.boolean (op.apply w.host v u), calls)
  | .unary _ op operand _, calls =>
    let (v, calls) := operand.eval w calls
    (op.apply w.host v, calls)
  | .call _ callee args _ builtin, calls =>
    let (values, calls) := Expr.evalList w args calls
    if builtin then (builtinApply w.host callee values, calls)
    else (w.answer (⟨callee, values⟩ :: calls), ⟨callee, values⟩ :: calls)
  | .range _ bound, calls => bound.eval w calls

/-- The values of expressions, one after the other. -/
def Expr.evalList (w : World) : List Expr → List Call → List Value × List Call
  | [], calls => ([], calls)
  | e :: es, calls =>
    let (v, calls) := e.eval w calls
    let (vs, calls) := Expr.evalList w es calls
    (v :: vs, calls)

/-- The text of a piece of a string. -/
def Segment.eval (w : World) : Segment → List Call → Bytes × List Call
  | .text value, calls => (value, calls)
  | .embedded value, calls =>
    let (v, calls) := value.eval w calls
    (v.toText w.host, calls)

/-- The text of the pieces of a string. -/
def Segment.evalList (w : World) : List Segment → List Call → Bytes × List Call
  | [], calls => ([], calls)
  | s :: ss, calls =>
    let (text, calls) := s.eval w calls
    let (rest, calls) := Segment.evalList w ss calls
    (text ++ rest, calls)

end

section Equations

variable (w : World) (calls : List Call)

@[simp] theorem Expr.eval_number (loc : Location) (x : Number) :
    (Expr.number loc x).eval w calls = (.number x, calls) := rfl

@[simp] theorem Expr.eval_string (loc : Location) (s : Bytes) :
    (Expr.string loc s).eval w calls = (.string s, calls) := rfl

@[simp] theorem Expr.eval_boolean (loc : Location) (b : Bool) :
    (Expr.boolean loc b).eval w calls = (.boolean b, calls) := rfl

theorem Expr.eval_interpolated (loc : Location) (segments : List Segment) :
    (Expr.interpolated loc segments).eval w calls =
      (.string (Segment.evalList w segments calls).1, (Segment.evalList w segments calls).2) := rfl

/-- An operator that is not decided by its left operand. -/
theorem Expr.eval_binary {op : BinaryOp} {left : Expr} (loc : Location) (right : Expr)
    (type : ValueType) (h : op.decidedBy (left.eval w calls).1 = false) :
    (Expr.binary loc op left right type).eval w calls =
      (op.apply w.host (left.eval w calls).1 (right.eval w (left.eval w calls).2).1,
        (right.eval w (left.eval w calls).2).2) := by
  rw [Expr.eval]
  simp only [h, Bool.false_eq_true, if_false]

/-- An operator that is decided by its left operand. -/
theorem Expr.eval_decided {op : BinaryOp} {left : Expr} (loc : Location) (right : Expr)
    (type : ValueType) (h : op.decidedBy (left.eval w calls).1 = true) :
    (Expr.binary loc op left right type).eval w calls = left.eval w calls := by
  rw [Expr.eval]
  simp only [h, if_true]

theorem Expr.eval_compare (loc : Location) (op : CompareOp) (left right : Expr) :
    (Expr.compare loc op left right).eval w calls =
      (.boolean (op.apply w.host (left.eval w calls).1 (right.eval w (left.eval w calls).2).1),
        (right.eval w (left.eval w calls).2).2) := rfl

theorem Expr.eval_unary (loc : Location) (op : UnaryOp) (operand : Expr) (type : ValueType) :
    (Expr.unary loc op operand type).eval w calls =
      (op.apply w.host (operand.eval w calls).1, (operand.eval w calls).2) := rfl

theorem Expr.eval_call (loc : Location) (callee : Bytes) (args : List Expr) (type : ValueType)
    (builtin : Bool) :
    (Expr.call loc callee args type builtin).eval w calls =
      if builtin then
        (builtinApply w.host callee (Expr.evalList w args calls).1, (Expr.evalList w args calls).2)
      else
        (w.answer (⟨callee, (Expr.evalList w args calls).1⟩ :: (Expr.evalList w args calls).2),
          ⟨callee, (Expr.evalList w args calls).1⟩ :: (Expr.evalList w args calls).2) := rfl

theorem Expr.evalList_cons (e : Expr) (es : List Expr) :
    Expr.evalList w (e :: es) calls =
      ((e.eval w calls).1 :: (Expr.evalList w es (e.eval w calls).2).1,
        (Expr.evalList w es (e.eval w calls).2).2) := rfl

theorem Segment.evalList_cons (s : Segment) (ss : List Segment) :
    Segment.evalList w (s :: ss) calls =
      ((s.eval w calls).1 ++ (Segment.evalList w ss (s.eval w calls).2).1,
        (Segment.evalList w ss (s.eval w calls).2).2) := rfl

end Equations

end Roar
