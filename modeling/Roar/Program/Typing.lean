import Roar.Diagnostic
import Roar.Program.Basic

/-!
# The rules of meaning

`SemanticError` lists what a program can do wrong although it can be parsed, and
`SemanticError.message` words it. The operator table says which operands an operator takes and what
it gives (`BinaryOp.resultType`, `CompareOp.accepts`, `UnaryOp.resultType`); an operand of unknown
type is never refused. `Expr.checkedBinary` and its neighbours build an expression by that table.
-/

namespace Roar

/-- What is wrong with a program. -/
inductive SemanticError where
  | operands (op : BinaryOp) (left right : ValueType)
  | modulusOperands
  | zeroDivisor
  | notOrdered
  | operand (op : UnaryOp) (type : ValueType)
  | undeclared (name : Bytes)
  | functionCompared (other : ValueType)
  | notFunction
  | argumentCount (expected passed : Nat)
  | recursiveArgument
  | argumentType (type : ValueType)
  | assignedExpression
  | immutable
  | loopVariable
  | differentTypes
  | redeclared (name : Bytes)
  | returnOutside
  | breakOutside
  | branchTypes
  | loopTarget
  | boundType
  | negativeBound
deriving DecidableEq, Repr

def SemanticError.message : SemanticError → Bytes
  | operands op left right =>
    ascii "Cannot apply " ++ op.text ++ ascii " to " ++ left.text ++ ascii " and " ++ right.text
  | modulusOperands => ascii "Modulus requires number operands"
  | zeroDivisor => ascii "Cannot divide by zero"
  | notOrdered => ascii "Expected number or string"
  | operand op type => ascii "Cannot apply " ++ op.text ++ ascii " to " ++ type.text
  | undeclared name => ascii "Variable '" ++ name ++ ascii "' not declared"
  | functionCompared other => ascii "Cannot compare function and " ++ other.text
  | notFunction => ascii "Not a function"
  | argumentCount expected passed =>
    ascii "Expected " ++ decimal expected ++ ascii " argument(s) but " ++ decimal passed ++
      ascii " passed"
  | recursiveArgument => ascii "Recursive call with invalid type"
  | argumentType type => ascii "Expected number argument but found " ++ type.text
  | assignedExpression => ascii "Cannot assign to expression"
  | immutable => ascii "Assignment to immutable variable"
  | loopVariable => ascii "Cannot reassign loop variable"
  | differentTypes => ascii "Operands must have the same type"
  | redeclared name => ascii "Variable already declared: " ++ name
  | returnOutside => ascii "Return statement outside function"
  | breakOutside => ascii "Break can only appear in a loop"
  | branchTypes => ascii "Mismatched types in if-else branches"
  | loopTarget => ascii "Invalid loop variable"
  | boundType => ascii "Range bound must be a number"
  | negativeBound => ascii "Range requires non-negative value"

/-- An error with its place. -/
structure SemanticFault where
  error : SemanticError
  loc : Location
deriving DecidableEq, Repr

def SemanticFault.diagnostic (f : SemanticFault) : Diagnostic :=
  .error f.loc f.error.message Diagnostic.semanticCode

/-! ## The operator table -/

/-- The type of two operands of an arithmetic operator: known once both are. -/
def ValueType.arithmetic (left right : ValueType) : ValueType :=
  if left == .unknown || right == .unknown then .unknown else .number

/-- What a binary operator gives for operands of two types. -/
def BinaryOp.resultType (op : BinaryOp) (left right : ValueType) :
    Except SemanticError ValueType :=
  match op with
  | .add =>
    if left == .string || right == .string then .ok .string
    else if left == .boolean || right == .boolean then .error (.operands op left right)
    else .ok (left.arithmetic right)
  | .sub | .mul | .div =>
    if left.excludes .number || right.excludes .number then .error (.operands op left right)
    else .ok (left.arithmetic right)
  | .mod =>
    if left.excludes .number || right.excludes .number then .error .modulusOperands
    else .ok (left.arithmetic right)
  | .and | .or =>
    if left.excludes .boolean || right.excludes .boolean then .error (.operands op left right)
    else .ok .boolean
  | .shl | .shr => .ok .number

/-- Operands of two types can be compared. Any two can be asked for equality; for order both must
be numbers or both strings, as far as they are known. -/
def CompareOp.accepts (op : CompareOp) (left right : ValueType) : Bool :=
  op.isEquality ||
    (left != .boolean && right != .boolean &&
      (left == .unknown || right == .unknown || left == right))

/-- What a unary operator gives for an operand. -/
def UnaryOp.resultType (op : UnaryOp) (type : ValueType) : Except SemanticError ValueType :=
  match op with
  | .neg => if type.excludes .number then .error (.operand op type) else .ok type
  | .not => if type.excludes .boolean then .error (.operand op type) else .ok .boolean

/-! ## Checked expressions -/

namespace Expr

/-- A number literal equal to zero. -/
def isZero : Expr → Bool
  | .number _ value => value.isZero
  | _ => false

/-- A binary expression, with the type of the table. A divisor must not be a literal zero. -/
def checkedBinary (loc : Location) (op : BinaryOp) (left right : Expr) :
    Except SemanticFault Expr :=
  match op.resultType left.type right.type with
  | .error e => .error ⟨e, loc⟩
  | .ok type =>
    if op == .div && right.isZero then .error ⟨.zeroDivisor, loc⟩
    else .ok (.binary loc op left right type)

/-- A comparison of operands that can be compared. -/
def checkedCompare (loc : Location) (op : CompareOp) (left right : Expr) :
    Except SemanticFault Expr :=
  if op.accepts left.type right.type then .ok (.compare loc op left right)
  else .error ⟨.notOrdered, loc⟩

/-- A unary expression, with the type of the table. -/
def checkedUnary (loc : Location) (op : UnaryOp) (operand : Expr) : Except SemanticFault Expr :=
  match op.resultType operand.type with
  | .error e => .error ⟨e, loc⟩
  | .ok type => .ok (.unary loc op operand type)

end Expr

end Roar
