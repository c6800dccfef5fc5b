import Roar.Bytes

/-!
# Operators and types

The operators of LionCode, and the types that its values have. The two shifts are not written in a
source; they come from the simplification of products and quotients. The comparison phrases
`is equal to`, `is less than` and `is greater than` mean the same as their signs
(`CompareOp.canonical`).
-/

namespace Roar

/-- The type of a value, as far as it is known. -/
inductive ValueType where
  | number
  | string
  | boolean
  | unknown
deriving DecidableEq, Repr

namespace ValueType

def text : ValueType → Bytes
  | number => ascii "number"
  | string => ascii "string"
  | boolean => ascii "boolean"
  | unknown => ascii "unknown"

/-- The type is known and is not the given one. -/
def excludes (actual wanted : ValueType) : Bool := actual != .unknown && actual != wanted

end ValueType

inductive BinaryOp where
  | add
  | sub
  | mul
  | div
  | mod
  | and
  | or
  | shl
  | shr
deriving DecidableEq, Repr

def BinaryOp.text : BinaryOp → Bytes
  | add => ascii "+"
  | sub => ascii "-"
  | mul => ascii "*"
  | div => ascii "/"
  | mod => ascii "%"
  | and => ascii "and"
  | or => ascii "or"
  | shl => ascii "<<"
  | shr => ascii ">>"

inductive CompareOp where
  | eq
  | ne
  | lt
  | le
  | gt
  | ge
  | isEqualTo
  | isLessThan
  | isGreaterThan
deriving DecidableEq, Repr

namespace CompareOp

def text : CompareOp → Bytes
  | eq => ascii "=="
  | ne => ascii "!="
  | lt => ascii "<"
  | le => ascii "<="
  | gt => ascii ">"
  | ge => ascii ">="
  | isEqualTo => ascii "is equal to"
  | isLessThan => ascii "is less than"
  | isGreaterThan => ascii "is greater than"

/-- The sign that a comparison phrase stands for. -/
def canonical : CompareOp → CompareOp
  | isEqualTo => eq
  | isLessThan => lt
  | isGreaterThan => gt
  | op => op

/-- The operator asks whether two values are equal, or whether they differ. -/
def isEquality (op : CompareOp) : Bool := op.canonical == eq || op.canonical == ne

end CompareOp

inductive UnaryOp where
  | neg
  | not
deriving DecidableEq, Repr

def UnaryOp.text : UnaryOp → Bytes
  | neg => ascii "-"
  | not => ascii "!"

end Roar
