import Roar.Analysis.Scope
import Roar.Number.Decimal
import Roar.Target.Names
import Roar.Target.Quoted

/-!
# Programs as JavaScript

`Expr.script` writes an expression with the names of a table, every operator between parentheses.
`Stmt.script` writes a statement as lines, two blanks for each block around them, and gives the
table after it. A loop computes its bound once, before its counter is known: a bound that is not a
literal gets a name of its own in the head of the loop.

`generate` is the text of a program for a target; `js` is the only one.
-/

namespace Roar

/-- The operator in the output. -/
def BinaryOp.script : BinaryOp → Bytes
  | .and => ascii "&&"
  | .or => ascii "||"
  | op => op.text

/-- The operator in the output. -/
def CompareOp.script (op : CompareOp) : Bytes :=
  match op.canonical with
  | .eq => ascii "==="
  | .ne => ascii "!=="
  | op => op.text

/-- A built-in function in the output. -/
def builtinScript (name : Bytes) : Bytes := ascii "Math." ++ name

/-- A name in the output: that of its declaration, or the name itself where it has none. -/
def Identifier.script (t : Names) (id : Identifier) : Bytes :=
  match t.resolve? id.name with
  | some emitted => emitted
  | none =>
    if id.isFunction && builtinNames.contains id.name then builtinScript id.name else id.name

/-- The function of a call in the output. -/
def calleeScript (t : Names) (callee : Bytes) (builtin : Bool) : Bytes :=
  if builtin then builtinScript callee else (t.resolve? callee).getD callee

/-- Two operands with an operator between them. -/
def infixScript (left op right : Bytes) : Bytes :=
  ascii "(" ++ left ++ ascii " " ++ op ++ ascii " " ++ right ++ ascii ")"

/-- An operand with an operator before it. Two minus signs are kept apart. -/
def prefixScript (op : UnaryOp) (operand : Bytes) : Bytes :=
  if op == .neg && operand.head? == some (byte '-') then ascii "(- " ++ operand ++ ascii ")"
  else ascii "(" ++ op.text ++ operand ++ ascii ")"

mutual

/-- An expression in the output. -/
def Expr.script (t : Names) : Expr → Bytes
  | .number _ value => value.text
  | .string _ value => quote value
  | .interpolated _ segments => ascii "`" ++ Segment.scriptList t segments ++ ascii "`"
  | .boolean _ value => if value then ascii "true" else ascii "false"
  | .identifier id => id.script t
  | .binary _ op left right _ => infixScript (left.script t) op.script (right.script t)
  | .compare _ op left right => infixScript (left.script t) op.script (right.script t)
  | .unary _ op operand _ => prefixScript op (operand.script t)
  | .call _ callee args _ builtin =>
    calleeScript t callee builtin ++ ascii "(" ++ Bytes.join (ascii ", ") (Expr.scriptList t args) ++
      ascii ")"
  | .range _ bound => bound.script t

/-- Expressions in the output, one by one. -/
def Expr.scriptList (t : Names) : List Expr → List Bytes
  | [] => []
  | e :: es => e.script t :: Expr.scriptList t es

/-- A piece of a string in the output. -/
def Segment.script (t : Names) : Segment → Bytes
  | .text value => templateText value
  | .embedded value => ascii "$\x7b" ++ value.script t ++ ascii "\x7d"

/-- Pieces of a string in the output, one after the other. -/
def Segment.scriptList (t : Names) : List Segment → Bytes
  | [] => []
  | s :: ss => s.script t ++ Segment.scriptList t ss

end

namespace Script

/-- A line inside so many blocks. -/
def line (depth : Nat) (text : Bytes) : Bytes := List.replicate (2 * depth) (byte ' ') ++ text

/-- A literal bound needs no name. -/
def isLiteralBound : Expr → Bool
  | .number .. => true
  | _ => false

/-- The head of a loop over a literal bound. -/
def literalHead (counter limit : Bytes) : Bytes :=
  ascii "for (let " ++ counter ++ ascii " = 0; " ++ counter ++ ascii " < " ++ limit ++ ascii "; " ++
    counter ++ ascii "++) \x7b"

/-- The head of a loop whose bound is computed once and kept under a name. -/
def namedHead (counter limitName limit : Bytes) : Bytes :=
  ascii "for (let " ++ counter ++ ascii " = 0, " ++ limitName ++ ascii " = " ++ limit ++ ascii "; " ++
    counter ++ ascii " < " ++ limitName ++ ascii "; " ++ counter ++ ascii "++) \x7b"

/-- The name under which a loop keeps its bound. -/
def limitName (counter : Bytes) : Bytes := counter ++ ascii "_limit"

/-- The head of a loop, and the table with the names that it declares. -/
def loopHead (t : Names) (counter : Bytes) (bound : Expr) : Bytes × Names :=
  let limit := bound.script t
  let (emitted, t) := t.push.declare counter
  if isLiteralBound bound then (literalHead emitted limit, t)
  else
    let (kept, t) := t.declare (limitName emitted)
    (namedHead emitted kept limit, t)

/-- The head of a function, and the table with its name outside and its parameters inside. -/
def functionHead (t : Names) (name : Bytes) (params : List Bytes) : Bytes × Names :=
  let (emitted, t) := t.declare name
  let (params, t) := t.push.declareAll params
  (ascii "function " ++ emitted ++ ascii "(" ++ Bytes.join (ascii ", ") params ++ ascii ") \x7b", t)

/-- An assignment, and the table after it. The value does not see a name that is declared with
it. -/
def assignment (t : Names) (target : Identifier) (value : Expr) (declares : Bool) :
    Bytes × Names :=
  let value := value.script t
  if declares then
    let (emitted, t) := t.declare target.name
    (ascii "let " ++ emitted ++ ascii " = " ++ value ++ ascii ";", t)
  else (target.script t ++ ascii " = " ++ value ++ ascii ";", t)

end Script

open Script

mutual

/-- A statement as lines, and the table after it. -/
def Stmt.script (depth : Nat) (t : Names) : Stmt → List Bytes × Names
  | .block _ body =>
    let (lines, t) := Stmt.scriptList (depth + 1) t.push body
    (line depth (ascii "\x7b") :: lines ++ [line depth (ascii "\x7d")], t.pop)
  | .assign _ target value declares =>
    let (text, t) := assignment t target value declares
    ([line depth text], t)
  | .print _ value => ([line depth (ascii "console.log(" ++ value.script t ++ ascii ");")], t)
  | .function _ name params _ body _ =>
    let (head, t) := functionHead t name params
    let (lines, t) := Stmt.scriptList (depth + 1) t body
    (line depth head :: lines ++ [line depth (ascii "\x7d")], t.pop)
  | .serve _ value => ([line depth (ascii "return " ++ value.script t ++ ascii ";")], t)
  | .branch _ condition _ thenBody alternate =>
    let head := ascii "if (" ++ condition.script t ++ ascii ") \x7b"
    let (lines, t) := Stmt.scriptList (depth + 1) t.push thenBody
    let (rest, t) := alternate.script depth t.pop
    (line depth head :: lines ++ rest, t)
  | .loop _ counter _ bound _ body =>
    let (head, t) := loopHead t counter.name bound
    let (lines, t) := Stmt.scriptList (depth + 1) t body
    (line depth head :: lines ++ [line depth (ascii "\x7d")], t.pop)
  | .leave _ => ([line depth (ascii "break;")], t)
  | .comment _ text => ([line depth (ascii "// " ++ text)], t)
  | .expression _ value => ([line depth (value.script t ++ ascii ";")], t)

/-- The rest of a conditional as lines, from the end of the block before on. -/
def Alternate.script (depth : Nat) (t : Names) : Alternate → List Bytes × Names
  | .none => ([line depth (ascii "\x7d")], t)
  | .block _ body =>
    let (lines, t) := Stmt.scriptList (depth + 1) t.push body
    (line depth (ascii "\x7d else \x7b") :: lines ++ [line depth (ascii "\x7d")], t.pop)
  | .branch _ condition _ thenBody alternate =>
    let head := ascii "\x7d else if (" ++ condition.script t ++ ascii ") \x7b"
    let (lines, t) := Stmt.scriptList (depth + 1) t.push thenBody
    let (rest, t) := alternate.script depth t.pop
    (line depth head :: lines ++ rest, t)

/-- Statements as lines, one after the other. -/
def Stmt.scriptList (depth : Nat) (t : Names) : List Stmt → List Bytes × Names
  | [] => ([], t)
  | s :: ss =>
    let (lines, t) := s.script depth t
    let (rest, t) := Stmt.scriptList depth t ss
    (lines ++ rest, t)

end

/-- A program in the output. -/
def Program.script (p : Program) : Bytes :=
  Bytes.join (ascii "\n") (Stmt.scriptList 0 {} p.statements).1

/-! ## Targets -/

/-- Why nothing can be generated. -/
inductive TargetError where
  | missing
  | unknown (name : Bytes)
deriving DecidableEq, Repr

def TargetError.message : TargetError → Bytes
  | missing => ascii "Output type required"
  | unknown name => ascii "Unknown output type: " ++ name

/-- The text of a program for a target. -/
def generate (p : Program) (target : Bytes) : Except TargetError Bytes :=
  if target = [] then .error .missing
  else if target = ascii "js" then .ok p.script
  else .error (.unknown target)

def TargetError.diagnostic (e : TargetError) : Diagnostic :=
  .error {} e.message Diagnostic.targetCode

end Roar
