import Roar.Number.Decimal
import Roar.Program.Equality

/-!
# Simplifying one node

The rules that make a simpler expression of one operator and its operands, the operands being
simplified already. Each rule applies or not; where several do, the first in the order given here
is taken, and where none does the node stays.

* Binary operators (`simplifyBinary`): two number literals are computed, two literals that a string
  `+` joins are joined, a truth value decides or leaves `and` and `or`, adding zero goes,
  `(x + c) + d` becomes `x + (c + d)`, multiplying by one goes, multiplying by zero is zero, and a
  product or quotient by `2 ^ k` becomes a shift.
* Comparisons (`simplifyCompare`): two literals are compared, and so are two expressions that say
  the same.
* `simplifyUnary`, `simplifyCall`: literals are computed, and a double negation goes.
* `simplifyString`: embedded literals become text.
-/

namespace Roar

/-! ## Literals -/

/-- The value of a literal. -/
inductive Literal where
  | number (value : Number)
  | string (value : Bytes)
  | boolean (value : Bool)
deriving DecidableEq

namespace Literal

/-- A literal as part of a string. -/
def text : Literal → Bytes
  | number value => value.text
  | string value => value
  | boolean value => if value then ascii "true" else ascii "false"

end Literal

/-- The value of an expression that is a literal. A string with embedded expressions is none. -/
def Expr.literal? : Expr → Option Literal
  | .number _ value => some (.number value)
  | .string _ value => some (.string value)
  | .boolean _ value => some (.boolean value)
  | _ => none

/-- The value of a number literal. -/
def Expr.number? : Expr → Option Number
  | .number _ value => some value
  | _ => none

/-- A number literal equal to a number. -/
def Expr.isNumber (n : Number) (e : Expr) : Bool := e.number?.any (·.eq n)

namespace Optimize

/-! ## Binary operators -/

/-- The value of an arithmetic operator on two numbers. Division by zero is left to the run. -/
def arithmetic? (op : BinaryOp) (x y : Number) : Option Number :=
  match op with
  | .add => some (x.add y)
  | .sub => some (x.sub y)
  | .mul => some (x.mul y)
  | .div => if y.isZero then none else some (x.div y)
  | .mod => if y.isZero then none else some (x.rem y)
  | _ => none

/-- Two number literals are computed. -/
def computeNumbers? (loc : Location) (op : BinaryOp) (left right : Expr) : Option Expr :=
  match left, right with
  | .number _ x, .number _ y => (arithmetic? op x y).map (.number loc)
  | _, _ => none

/-- Two literals that a string `+` joins are joined. -/
def joinLiterals? (loc : Location) (op : BinaryOp) (left right : Expr) (type : ValueType) :
    Option Expr :=
  if op == .add && type == .string then
    match left.literal?, right.literal? with
    | some x, some y => some (.string loc (x.text ++ y.text))
    | _, _ => none
  else none

/-- A truth value beside another operand: `neutral` leaves the other, the opposite decides. -/
def decideWith (loc : Location) (neutral value : Bool) (other : Expr) : Expr :=
  if value == neutral then other else .boolean loc value

/-- A truth value on either side of `and` or `or`, the left side first. -/
def shortCircuit? (loc : Location) (op : BinaryOp) (left right : Expr) : Option Expr :=
  if op == .and || op == .or then
    match left with
    | .boolean _ value => some (decideWith loc (op == .and) value right)
    | _ =>
      match right with
      | .boolean _ value => some (decideWith loc (op == .and) value left)
      | _ => none
  else none

/-- Adding zero to a number goes. -/
def addZero? (op : BinaryOp) (left right : Expr) : Option Expr :=
  if op == .add then
    if right.isNumber (.zero false) && left.type == .number then some left
    else if left.isNumber (.zero false) && right.type == .number then some right
    else none
  else none

/-- A sum `(x + c) + d` of a number and two literals becomes `x + (c + d)`. -/
def combineTerms? (loc : Location) (op : BinaryOp) (left right : Expr) (type : ValueType) :
    Option Expr :=
  if op == .add && type == .number then
    match left, right with
    | .binary _ .add x (.number constLoc c) _, .number _ d =>
      if x.type == .number then
        some (.binary loc .add x (.number constLoc (c.add d)) .number)
      else none
    | _, _ => none
  else none

/-- Multiplying by one goes, and multiplying by zero is zero. -/
def multiplyTrivial? (loc : Location) (op : BinaryOp) (left right : Expr) : Option Expr :=
  if op == .mul then
    if right.isNumber (.ofNat 1) then some left
    else if left.isNumber (.ofNat 1) then some right
    else if right.isNumber (.zero false) || left.isNumber (.zero false) then
      some (.number loc (.zero false))
    else none
  else none

/-- The exponent of an expression that is a literal power of two. -/
def shiftCount? (e : Expr) : Option Nat := e.number?.bind Number.powerOfTwo?

/-- A shift of an expression by the exponent of a literal power of two. -/
def shift? (loc : Location) (op : BinaryOp) (e power : Expr) : Option Expr :=
  (shiftCount? power).map fun k => .binary loc op e (.number power.loc (.ofNat k)) .number

/-- A product or a quotient by a power of two becomes a shift. -/
def reduceStrength? (loc : Location) (op : BinaryOp) (left right : Expr) : Option Expr :=
  match op with
  | .mul => (shift? loc .shl left right).or (shift? loc .shl right left)
  | .div => shift? loc .shr left right
  | _ => none

/-- A binary operator with simplified operands. -/
def simplifyBinary (loc : Location) (op : BinaryOp) (left right : Expr) (type : ValueType) :
    Expr :=
  ((computeNumbers? loc op left right).or <|
    (joinLiterals? loc op left right type).or <|
    (shortCircuit? loc op left right).or <|
    (addZero? op left right).or <|
    (combineTerms? loc op left right type).or <|
    (multiplyTrivial? loc op left right).or <|
    reduceStrength? loc op left right).getD (.binary loc op left right type)

/-! ## Comparisons -/

/-- A comparison of two values of a type with a strict order. -/
def compareWith {α : Type} (eq lt : α → α → Bool) (op : CompareOp) (x y : α) : Bool :=
  match op.canonical with
  | .eq => eq x y
  | .ne => !eq x y
  | .lt => lt x y
  | .le => lt x y || eq x y
  | .gt => lt y x
  | .ge => lt y x || eq x y
  | _ => false

/-- The outcome of a comparison of two literals, where it has one: strings go by their bytes, truth
values have no order, and literals of different types are not equal. -/
def compareLiterals? (op : CompareOp) (x y : Literal) : Option Bool :=
  match x, y with
  | .number x, .number y => some (compareWith Number.eq Number.lt op x y)
  | .string x, .string y => some (compareWith (· == ·) (fun x y => decide (x < y)) op x y)
  | .boolean x, .boolean y => if op.isEquality then some ((x == y) == (op.canonical == .eq)) else none
  | _, _ => if op.isEquality then some (op.canonical == .ne) else none

/-- The outcome of a comparison of an expression with itself. -/
def compareSame (op : CompareOp) : Bool :=
  match op.canonical with
  | .eq | .le | .ge => true
  | _ => false

/-- A comparison with simplified operands. -/
def simplifyCompare (loc : Location) (op : CompareOp) (left right : Expr) : Expr :=
  let folded := match left.literal?, right.literal? with
    | some x, some y => compareLiterals? op x y
    | _, _ => none
  match folded with
  | some outcome => .boolean loc outcome
  | none =>
    if left.same right then .boolean loc (compareSame op) else .compare loc op left right

/-! ## Unary operators and calls -/

/-- A unary operator with a simplified operand. -/
def simplifyUnary (loc : Location) (op : UnaryOp) (operand : Expr) (type : ValueType) : Expr :=
  match op, operand with
  | .neg, .number _ value => .number loc value.neg
  | .not, .boolean _ value => .boolean loc (!value)
  | .not, .unary _ .not inner _ => inner
  | op, operand => .unary loc op operand type

/-- The value of a built-in function. The root of a negative number is left to the run. -/
def builtinValue? (name : Bytes) (x : Number) : Option Number :=
  if name = ascii "abs" then some x.abs
  else if name = ascii "floor" then some x.floor
  else if name = ascii "ceil" then some x.ceil
  else if name = ascii "sqrt" && Number.le (.zero false) x then some x.sqrt
  else none

/-- A call with simplified arguments. -/
def simplifyCall (loc : Location) (callee : Bytes) (args : List Expr) (type : ValueType)
    (builtin : Bool) : Expr :=
  let folded := match builtin, args with
    | true, [.number _ x] => builtinValue? callee x
    | _, _ => none
  match folded with
  | some value => .number loc value
  | none => .call loc callee args type builtin

/-- A piece of a string with a simplified value: a literal is text. -/
def simplifyEmbedded (value : Expr) : Segment :=
  match value.literal? with
  | some x => .text x.text
  | none => .embedded value

/-- A string with simplified pieces. Where no piece was simplified, they are not joined anew. -/
def simplifyString (loc : Location) (pieces simplified : List Segment) : Expr :=
  if simplified = pieces then .interpolated loc pieces else .interpolate loc simplified

end Optimize

end Roar
