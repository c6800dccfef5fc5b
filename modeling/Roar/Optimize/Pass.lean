import Roar.Optimize.Fold

/-!
# The simplifying pass

`Program.optimize` simplifies a program from the leaves up. A statement becomes a list of
statements: one that does nothing becomes none, and a conditional whose condition is known becomes
the statements of the block that is run.

A condition `a != b` with a block for either outcome is turned round, so that the blocks of `a == b`
stand in its place.
-/

namespace Roar

open Optimize

mutual

/-- Simplify an expression. -/
def Expr.optimize : Expr → Expr
  | .number loc value => .number loc value
  | .string loc value => .string loc value
  | .interpolated loc segments => simplifyString loc segments (Segment.optimizeList segments)
  | .boolean loc value => .boolean loc value
  | .identifier id => .identifier id
  | .binary loc op left right type => simplifyBinary loc op left.optimize right.optimize type
  | .compare loc op left right => simplifyCompare loc op left.optimize right.optimize
  | .unary loc op operand type => simplifyUnary loc op operand.optimize type
  | .call loc callee args type builtin =>
    simplifyCall loc callee (Expr.optimizeList args) type builtin
  | .range loc bound => .range loc bound.optimize

/-- Simplify expressions one by one. -/
def Expr.optimizeList : List Expr → List Expr
  | [] => []
  | e :: es => e.optimize :: Expr.optimizeList es

/-- Simplify a piece of a string. -/
def Segment.optimize : Segment → Segment
  | .text value => .text value
  | .embedded value => simplifyEmbedded value.optimize

/-- Simplify pieces of a string one by one. -/
def Segment.optimizeList : List Segment → List Segment
  | [] => []
  | s :: ss => s.optimize :: Segment.optimizeList ss

end

namespace Optimize

/-! ## One statement -/

/-- The value is the name that it is assigned to. -/
def assignsItself (target : Identifier) (value : Expr) : Bool :=
  match value with
  | .identifier id => id.name == target.name
  | _ => false

/-- An assignment with a simplified value; one of a name to itself goes. -/
def simplifyAssign (loc : Location) (target : Identifier) (value : Expr) (declares : Bool) :
    List Stmt :=
  if assignsItself target value then [] else [.assign loc target value declares]

/-- The statements that are run when a condition is false. -/
def alternateStmts : Alternate → List Stmt
  | .none => []
  | .block _ body => body
  | .branch loc condition thenLoc thenBody alternate =>
    [.branch loc condition thenLoc thenBody alternate]

/-- A conditional with simplified parts. -/
def simplifyBranch (loc : Location) (condition : Expr) (thenLoc : Location)
    (thenBody : List Stmt) (alternate : Alternate) : List Stmt :=
  match condition with
  | .boolean _ value => if value then thenBody else alternateStmts alternate
  | condition =>
    match thenBody, alternate with
    | [], .none => []
    | thenBody, .block elseLoc elseBody =>
      match condition with
      | .compare cmpLoc .ne left right =>
        [.branch loc (.compare cmpLoc .eq left right) elseLoc elseBody (.block thenLoc thenBody)]
      | condition => [.branch loc condition thenLoc thenBody (.block elseLoc elseBody)]
    | thenBody, alternate => [.branch loc condition thenLoc thenBody alternate]

/-- The statements of a simplified further condition, as what is done when the one before is false:
nothing, the condition itself, or a block. -/
def alternateOf (loc : Location) : List Stmt → Alternate
  | [] => .none
  | [.branch loc condition thenLoc thenBody alternate] =>
    .branch loc condition thenLoc thenBody alternate
  | body => .block loc body

/-- A number literal that is not above zero. -/
def neverCounts (bound : Expr) : Bool := bound.number?.any fun n => n.le (.zero false)

/-- A loop with simplified parts; one that does nothing goes. -/
def simplifyLoop (loc : Location) (counter : Identifier) (rangeLoc : Location) (bound : Expr)
    (bodyLoc : Location) (body : List Stmt) : List Stmt :=
  if neverCounts bound || body.isEmpty then []
  else [.loop loc counter rangeLoc bound bodyLoc body]

end Optimize

mutual

/-- Simplify a statement. -/
def Stmt.optimize : Stmt → List Stmt
  | .block loc body => [.block loc (Stmt.optimizeList body)]
  | .assign loc target value declares => simplifyAssign loc target value.optimize declares
  | .print loc value => [.print loc value.optimize]
  | .function loc name params bodyLoc body returns =>
    [.function loc name params bodyLoc (Stmt.optimizeList body) returns]
  | .serve loc value => [.serve loc value.optimize]
  | .branch loc condition thenLoc thenBody alternate =>
    simplifyBranch loc condition.optimize thenLoc (Stmt.optimizeList thenBody) alternate.optimize
  | .loop loc counter rangeLoc bound bodyLoc body =>
    simplifyLoop loc counter rangeLoc bound.optimize bodyLoc (Stmt.optimizeList body)
  | .leave loc => [.leave loc]
  | .comment loc text => [.comment loc text]
  | .expression loc value => [.expression loc value.optimize]

/-- Simplify what is done when a condition is false. A block stays one, also when it is empty. -/
def Alternate.optimize : Alternate → Alternate
  | .none => .none
  | .block loc body => .block loc (Stmt.optimizeList body)
  | .branch loc condition thenLoc thenBody alternate =>
    alternateOf loc
      (simplifyBranch loc condition.optimize thenLoc (Stmt.optimizeList thenBody)
        alternate.optimize)

/-- Simplify statements, each replaced by what becomes of it. -/
def Stmt.optimizeList : List Stmt → List Stmt
  | [] => []
  | s :: ss => s.optimize ++ Stmt.optimizeList ss

end

/-- Simplify a program. -/
def Program.optimize (p : Program) : Program := ⟨Stmt.optimizeList p.statements⟩

end Roar
