import Roar.Location
import Roar.Number.Basic
import Roar.Operator

/-!
# Parse trees

What a source says, before names are resolved and types are known. Every node has the place of the
token that stands for it: the first token, or the operator of a binary expression.

A conditional statement is a chain of `Arms`: conditions with their blocks, one tried after the
other, that ends with an `otherwise` block or without one.
-/

namespace Roar.Grammar

mutual

/-- An expression. A number keeps the text that it was written with. -/
inductive Expr where
  | number (loc : Location) (value : Number) (text : Bytes)
  | string (loc : Location) (value : Bytes)
  | interpolated (loc : Location) (segments : List Segment)
  | boolean (loc : Location) (value : Bool)
  | identifier (loc : Location) (name : Bytes)
  | binary (loc : Location) (op : BinaryOp) (left right : Expr)
  | compare (loc : Location) (op : CompareOp) (left right : Expr)
  | unary (loc : Location) (op : UnaryOp) (operand : Expr)
  | call (loc : Location) (callee : Bytes) (args : List Expr)

/-- A piece of a string: text, or the value of an embedded expression. -/
inductive Segment where
  | text (value : Bytes)
  | embedded (value : Expr)

end

/-- The place of an expression. -/
def Expr.loc : Expr → Location
  | .number loc .. | .string loc _ | .interpolated loc _ | .boolean loc _ | .identifier loc _
  | .binary loc .. | .compare loc .. | .unary loc .. | .call loc .. => loc

/-- A parameter of a function. -/
structure Param where
  name : Bytes
  loc : Location
deriving DecidableEq, Repr

mutual

/-- A statement. The place of a block is that of its opening bar. -/
inductive Stmt where
  | print (loc : Location) (value : Expr)
  | assign (loc : Location) (target value : Expr)
  | function (loc : Location) (name : Bytes) (params : List Param) (bodyLoc : Location)
      (body : List Stmt)
  | serve (loc : Location) (value : Expr)
  | branch (loc : Location) (arms : Arms)
  | loop (loc : Location) (counter : Expr) (rangeLoc : Location) (bound : Expr)
      (bodyLoc : Location) (body : List Stmt)
  | leave (loc : Location)
  | comment (loc : Location) (text : Bytes)
  | expression (loc : Location) (value : Expr)

/-- The arms of a conditional statement, from the first on. -/
inductive Arms where
  | done
  | otherwise (bodyLoc : Location) (body : List Stmt)
  | arm (loc : Location) (condition : Expr) (bodyLoc : Location) (body : List Stmt) (rest : Arms)

end

/-- The place of a statement. -/
def Stmt.loc : Stmt → Location
  | .print loc _ | .assign loc .. | .function loc .. | .serve loc _ | .branch loc _ | .loop loc ..
  | .leave loc | .comment loc _ | .expression loc _ => loc

/-- A whole source. -/
structure Tree where
  file : Nat
  statements : List Stmt

end Roar.Grammar
