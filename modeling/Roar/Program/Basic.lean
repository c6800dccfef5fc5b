import Roar.Location
import Roar.Number.Basic
import Roar.Operator

/-!
# Programs

A program whose names are resolved and whose expressions have types. A tree need not be well typed
to be a value of these types: the operations on programs are defined on all of them.

* `Expr.interpolate` makes a string of pieces: empty texts go, neighbouring texts are joined, and a
  string without an embedded expression is a plain one.
* `Expr.same` compares two expressions by what they say, not by place or type.
-/

namespace Roar

/-- A use of a name. `isFunction` says that the name is one of a function. -/
structure Identifier where
  loc : Location
  name : Bytes
  type : ValueType
  isFunction : Bool := false
deriving DecidableEq, Repr

mutual

/-- An expression. A range is what a loop counts up to. -/
inductive Expr where
  | number (loc : Location) (value : Number)
  | string (loc : Location) (value : Bytes)
  | interpolated (loc : Location) (segments : List Segment)
  | boolean (loc : Location) (value : Bool)
  | identifier (id : Identifier)
  | binary (loc : Location) (op : BinaryOp) (left right : Expr) (type : ValueType)
  | compare (loc : Location) (op : CompareOp) (left right : Expr)
  | unary (loc : Location) (op : UnaryOp) (operand : Expr) (type : ValueType)
  | call (loc : Location) (callee : Bytes) (args : List Expr) (type : ValueType) (builtin : Bool)
  | range (loc : Location) (bound : Expr)

/-- A piece of a string: text, or the value of an embedded expression. -/
inductive Segment where
  | text (value : Bytes)
  | embedded (value : Expr)

end

namespace Expr

/-- The place of an expression. -/
def loc : Expr → Location
  | .number loc _ | .string loc _ | .interpolated loc _ | .boolean loc _ | .binary loc ..
  | .compare loc .. | .unary loc .. | .call loc .. | .range loc _ => loc
  | .identifier id => id.loc

/-- The type of an expression. -/
def type : Expr → ValueType
  | .number .. | .range .. => .number
  | .string .. | .interpolated .. => .string
  | .boolean .. | .compare .. => .boolean
  | .identifier id => id.type
  | .binary _ _ _ _ type | .unary _ _ _ type | .call _ _ _ type _ => type

/-- A use of the name of a function. -/
def isFunction : Expr → Bool
  | .identifier id => id.isFunction
  | _ => false

end Expr

namespace Segment

/-- The pieces without empty texts, and with neighbouring texts joined. -/
def merge : List Segment → List Segment
  | [] => []
  | .embedded e :: rest => .embedded e :: merge rest
  | .text t :: rest =>
    if t = [] then merge rest
    else match merge rest with
      | .text u :: more => .text (t ++ u) :: more
      | more => .text t :: more

end Segment

/-- The string of some pieces. -/
def Expr.interpolate (loc : Location) (segments : List Segment) : Expr :=
  match Segment.merge segments with
  | [] => .string loc []
  | [.text t] => .string loc t
  | merged => .interpolated loc merged

mutual

/-- A statement. The first assignment to a name `declares` it. -/
inductive Stmt where
  | block (loc : Location) (body : List Stmt)
  | assign (loc : Location) (target : Identifier) (value : Expr) (declares : Bool)
  | print (loc : Location) (value : Expr)
  | function (loc : Location) (name : Bytes) (params : List Bytes) (bodyLoc : Location)
      (body : List Stmt) (returns : ValueType)
  | serve (loc : Location) (value : Expr)
  | branch (loc : Location) (condition : Expr) (thenLoc : Location) (thenBody : List Stmt)
      (alternate : Alternate)
  | loop (loc : Location) (counter : Identifier) (rangeLoc : Location) (bound : Expr)
      (bodyLoc : Location) (body : List Stmt)
  | leave (loc : Location)
  | comment (loc : Location) (text : Bytes)
  | expression (loc : Location) (value : Expr)

/-- What is done when a condition is false: nothing, a block, or the next condition. -/
inductive Alternate where
  | none
  | block (loc : Location) (body : List Stmt)
  | branch (loc : Location) (condition : Expr) (thenLoc : Location) (thenBody : List Stmt)
      (alternate : Alternate)

end

/-- The name of the kind of a statement. -/
def Stmt.kind : Stmt → Bytes
  | .block .. => ascii "Block"
  | .assign .. => ascii "AssignmentStatement"
  | .print .. => ascii "PrintStatement"
  | .function .. => ascii "FunctionDeclaration"
  | .serve .. => ascii "ReturnStatement"
  | .branch .. => ascii "IfStatement"
  | .loop .. => ascii "WhileStatement"
  | .leave .. => ascii "BreakStatement"
  | .comment .. => ascii "Comment"
  | .expression .. => ascii "ExpressionStatement"

/-- A whole program. -/
structure Program where
  statements : List Stmt

/-! ## Equality of what is said -/

mutual

/-- The two expressions say the same: they have the same shape, operators, names and literals.
Numbers are compared by value, so an expression with a NaN in it is not the same as itself. -/
def Expr.same : Expr → Expr → Bool
  | .number _ x, .number _ y => x.eq y
  | .string _ x, .string _ y => x == y
  | .interpolated _ xs, .interpolated _ ys => Segment.sameList xs ys
  | .boolean _ x, .boolean _ y => x == y
  | .identifier x, .identifier y => x.name == y.name
  | .binary _ o l r _, .binary _ p m s _ => o == p && l.same m && r.same s
  | .compare _ o l r, .compare _ p m s => o == p && l.same m && r.same s
  | .unary _ o x _, .unary _ p y _ => o == p && x.same y
  | .call _ f xs _ _, .call _ g ys _ _ => f == g && Expr.sameList xs ys
  | .range _ x, .range _ y => x.same y
  | _, _ => false

/-- Two lists of expressions, compared one by one. -/
def Expr.sameList : List Expr → List Expr → Bool
  | [], [] => true
  | x :: xs, y :: ys => x.same y && Expr.sameList xs ys
  | _, _ => false

/-- Two pieces of strings. -/
def Segment.same : Segment → Segment → Bool
  | .text x, .text y => x == y
  | .embedded x, .embedded y => x.same y
  | _, _ => false

/-- Two lists of pieces, compared one by one. -/
def Segment.sameList : List Segment → List Segment → Bool
  | [], [] => true
  | x :: xs, y :: ys => x.same y && Segment.sameList xs ys
  | _, _ => false

end

end Roar
