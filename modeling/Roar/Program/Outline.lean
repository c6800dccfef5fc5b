import Roar.Number.Decimal
import Roar.Program.Basic

/-!
# Outlines of programs

An outline shows a program as an indented list, a line for each node, with types and places. The
texts in it are between double quotes as they are, without escapes.
-/

namespace Roar

namespace Outline

/-- A line at some depth, two blanks for each. -/
def line (depth : Nat) (text : Bytes) : Bytes :=
  List.replicate (2 * depth) (byte ' ') ++ text ++ ascii "\n"

def quoted (text : Bytes) : Bytes := ascii "\"" ++ text ++ ascii "\""

def place (loc : Location) : Bytes := ascii "(" ++ loc.text ++ ascii ")"

end Outline

open Outline

/-- What an expression is, in the line that shows it. -/
def Expr.heading : Expr → Bytes
  | .number _ value => ascii "NumberLiteral " ++ value.text
  | .string _ value => ascii "StringLiteral " ++ quoted value
  | .interpolated .. => ascii "StringLiteral interpolated"
  | .boolean _ value => ascii "BooleanLiteral " ++ if value then ascii "true" else ascii "false"
  | .identifier id =>
    ascii "Identifier " ++ quoted id.name ++ if id.isFunction then ascii " function" else []
  | .binary _ op .. => ascii "BinaryExpression (" ++ op.text ++ ascii ")"
  | .compare _ op .. => ascii "ComparisonExpression (" ++ op.text ++ ascii ")"
  | .unary _ op .. => ascii "UnaryExpression (" ++ op.text ++ ascii ")"
  | .call _ callee _ _ builtin =>
    ascii "FunctionCall " ++ quoted callee ++ if builtin then ascii " builtin" else []
  | .range .. => ascii "RangeExpression"

/-- The line of an expression. -/
def Expr.outlineHead (depth : Nat) (e : Expr) : Bytes :=
  line depth (e.heading ++ ascii " : " ++ e.type.text ++ ascii " " ++ place e.loc)

mutual

/-- The outline of an expression at some depth. -/
def Expr.outline (depth : Nat) : Expr → Bytes
  | .number loc value => (Expr.number loc value).outlineHead depth
  | .string loc value => (Expr.string loc value).outlineHead depth
  | .interpolated loc segments =>
    (Expr.interpolated loc segments).outlineHead depth ++ Segment.outlineList (depth + 1) segments
  | .boolean loc value => (Expr.boolean loc value).outlineHead depth
  | .identifier id => (Expr.identifier id).outlineHead depth
  | .binary loc op left right type =>
    (Expr.binary loc op left right type).outlineHead depth ++ left.outline (depth + 1) ++
      right.outline (depth + 1)
  | .compare loc op left right =>
    (Expr.compare loc op left right).outlineHead depth ++ left.outline (depth + 1) ++
      right.outline (depth + 1)
  | .unary loc op operand type =>
    (Expr.unary loc op operand type).outlineHead depth ++ operand.outline (depth + 1)
  | .call loc callee args type builtin =>
    (Expr.call loc callee args type builtin).outlineHead depth ++
      Expr.outlineList (depth + 1) args
  | .range loc bound => (Expr.range loc bound).outlineHead depth ++ bound.outline (depth + 1)

/-- The outlines of expressions, one after the other. -/
def Expr.outlineList (depth : Nat) : List Expr → Bytes
  | [] => []
  | e :: es => e.outline depth ++ Expr.outlineList depth es

/-- The outline of a piece of a string. -/
def Segment.outline (depth : Nat) : Segment → Bytes
  | .text value => line depth (ascii "Text " ++ quoted value)
  | .embedded value => value.outline depth

/-- The outlines of pieces, one after the other. -/
def Segment.outlineList (depth : Nat) : List Segment → Bytes
  | [] => []
  | s :: ss => s.outline depth ++ Segment.outlineList depth ss

end

mutual

/-- The outline of a statement at some depth. -/
def Stmt.outline (depth : Nat) : Stmt → Bytes
  | .block loc body =>
    line depth (ascii "Block " ++ place loc) ++ Stmt.outlineList (depth + 1) body
  | .assign loc target value declares =>
    line depth (ascii "AssignmentStatement " ++ (if declares then ascii "let " else []) ++
        place loc) ++
      (Expr.identifier target).outline (depth + 1) ++ value.outline (depth + 1)
  | .print loc value =>
    line depth (ascii "PrintStatement " ++ place loc) ++ value.outline (depth + 1)
  | .function loc name params _ body returns =>
    line depth (ascii "FunctionDeclaration " ++ quoted name ++ ascii " : " ++ returns.text ++
        ascii " " ++ place loc) ++
      line (depth + 1) (ascii "Params:" ++ params.flatMap (ascii " " ++ ·)) ++
      line (depth + 1) (ascii "Body:") ++ Stmt.outlineList (depth + 2) body
  | .serve loc value =>
    line depth (ascii "ReturnStatement " ++ place loc) ++ value.outline (depth + 1)
  | .branch loc condition _ thenBody alternate =>
    line depth (ascii "IfStatement " ++ place loc) ++ condition.outline (depth + 1) ++
      line (depth + 1) (ascii "Then:") ++ Stmt.outlineList (depth + 2) thenBody ++
      alternate.outline (depth + 1)
  | .loop loc counter rangeLoc bound _ body =>
    line depth (ascii "WhileStatement " ++ place loc) ++
      (Expr.identifier counter).outline (depth + 1) ++
      (Expr.range rangeLoc bound).outline (depth + 1) ++
      line (depth + 1) (ascii "Body:") ++ Stmt.outlineList (depth + 2) body
  | .leave loc => line depth (ascii "BreakStatement " ++ place loc)
  | .comment loc text => line depth (ascii "Comment " ++ quoted text ++ ascii " " ++ place loc)
  | .expression loc value =>
    line depth (ascii "ExpressionStatement " ++ place loc) ++ value.outline (depth + 1)

/-- The outline of what is done when a condition is false. -/
def Alternate.outline (depth : Nat) : Alternate → Bytes
  | .none => []
  | .block loc body =>
    line depth (ascii "Else:") ++ line (depth + 1) (ascii "Block " ++ place loc) ++
      Stmt.outlineList (depth + 2) body
  | .branch loc condition _ thenBody alternate =>
    line depth (ascii "Else:") ++ line (depth + 1) (ascii "IfStatement " ++ place loc) ++
      condition.outline (depth + 2) ++ line (depth + 2) (ascii "Then:") ++
      Stmt.outlineList (depth + 3) thenBody ++ alternate.outline (depth + 2)

/-- The outlines of statements, one after the other. -/
def Stmt.outlineList (depth : Nat) : List Stmt → Bytes
  | [] => []
  | s :: ss => s.outline depth ++ Stmt.outlineList depth ss

end

/-- The outline of a program. -/
def Program.outline (p : Program) : Bytes :=
  line 0 (ascii "Program") ++ Stmt.outlineList 1 p.statements

end Roar
