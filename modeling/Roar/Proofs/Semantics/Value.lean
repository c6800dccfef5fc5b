import Roar.Number.Decimal
import Roar.Operator

/-!
# Values of a running program

What the operators of the output compute. A value is converted to a number, to a text or to a truth
value where an operator asks for it. Two conversions are left open (`Host`): the number that a text
is read as, and the text of a function.

* `Number.shl` and `Number.shr`: the shifts, which go by the integer part of a number modulo
  `2 ^ 32`, with a sign.
* `BinaryOp.apply`, `CompareOp.apply`, `UnaryOp.apply`: the operators on values.
* `builtinApply`: the built-in functions.
-/

namespace Roar

/-! ## Shifts -/

namespace Number

/-- An integer as a double. -/
def ofInt (z : Int) : Number := round (decide (z < 0)) (z.natAbs * one) 1

/-- The integer part of a number, modulo `2 ^ 32`. What is not finite has none, and counts as
zero. -/
def toInt32 : Number → BitVec 32
  | .finite negative units _ => BitVec.ofInt 32 (signed negative (units / one))
  | _ => 0

/-- How far a shift goes: only the lowest five bits count. -/
def shiftAmount (k : Number) : Nat := k.toInt32.toNat % 32

def shl (a k : Number) : Number := ofInt (a.toInt32 <<< k.shiftAmount).toInt

/-- The sign moves into the bits that become free. -/
def shr (a k : Number) : Number := ofInt (a.toInt32.sshiftRight k.shiftAmount).toInt

end Number

/-! ## Values and their conversions -/

/-- A value. A function is known by its name; a call that serves nothing gives `undefined`. -/
inductive Value where
  | number (value : Number)
  | string (value : Bytes)
  | boolean (value : Bool)
  | function (name : Bytes)
  | undefined
deriving DecidableEq

/-- The conversions that are left open. -/
structure Host where
  numberOf : Bytes → Number
  textOf : Bytes → Bytes

namespace Value

/-- The value counts as true in a condition. -/
def truthy : Value → Bool
  | number n => !n.isZero && n != .nan
  | string s => !s.isEmpty
  | boolean b => b
  | function _ => true
  | undefined => false

/-- The value as a part of a sum or of a comparison: a function is its text. -/
def primitive (host : Host) : Value → Value
  | function name => string (host.textOf name)
  | v => v

def toNumber (host : Host) : Value → Number
  | number n => n
  | string s => host.numberOf s
  | boolean b => if b then .ofNat 1 else .zero false
  | function name => host.numberOf (host.textOf name)
  | undefined => .nan

def toText (host : Host) : Value → Bytes
  | number n => n.text
  | string s => s
  | boolean b => if b then ascii "true" else ascii "false"
  | function name => host.textOf name
  | undefined => ascii "undefined"

/-! ## Operators -/

/-- A sum joins texts if one of its operands is a text. -/
def sum (host : Host) (v w : Value) : Value :=
  match v.primitive host, w.primitive host with
  | string s, w => string (s ++ w.toText host)
  | v, string t => string (v.toText host ++ t)
  | v, w => number ((v.toNumber host).add (w.toNumber host))

/-- Values of different kinds are not equal. -/
def equals : Value → Value → Bool
  | number x, number y => x.eq y
  | string x, string y => x == y
  | boolean x, boolean y => x == y
  | function x, function y => x == y
  | undefined, undefined => true
  | _, _ => false

/-- Two texts are ordered by their bytes, and all else as numbers. -/
def ordered (host : Host) (texts : Bytes → Bytes → Bool) (numbers : Number → Number → Bool)
    (v w : Value) : Bool :=
  match v.primitive host, w.primitive host with
  | string s, string t => texts s t
  | v, w => numbers (v.toNumber host) (w.toNumber host)

def less (host : Host) : Value → Value → Bool :=
  ordered host (fun s t => decide (s < t)) Number.lt

def atMost (host : Host) : Value → Value → Bool :=
  ordered host (fun s t => decide (s < t) || s == t) Number.le

/-- An operator on the numbers of two values. -/
def arithmetic (host : Host) (f : Number → Number → Number) (v w : Value) : Value :=
  number (f (v.toNumber host) (w.toNumber host))

end Value

open Value

/-- What a binary operator gives for two values. -/
def BinaryOp.apply (host : Host) (op : BinaryOp) (v w : Value) : Value :=
  match op with
  | .add => v.sum host w
  | .sub => v.arithmetic host Number.sub w
  | .mul => v.arithmetic host Number.mul w
  | .div => v.arithmetic host Number.div w
  | .mod => v.arithmetic host Number.rem w
  | .and => if v.truthy then w else v
  | .or => if v.truthy then v else w
  | .shl => v.arithmetic host Number.shl w
  | .shr => v.arithmetic host Number.shr w

/-- The outcome of a comparison of two values. -/
def CompareOp.apply (host : Host) (op : CompareOp) (v w : Value) : Bool :=
  match op.canonical with
  | .eq => v.equals w
  | .ne => !v.equals w
  | .lt => v.less host w
  | .le => v.atMost host w
  | .gt => w.less host v
  | .ge => w.atMost host v
  | _ => false

/-- What a unary operator gives for a value. -/
def UnaryOp.apply (host : Host) (op : UnaryOp) (v : Value) : Value :=
  match op with
  | .neg => .number (v.toNumber host).neg
  | .not => .boolean !v.truthy

/-- What a built-in function gives for its arguments, of which it sees the first. -/
def builtinApply (host : Host) (name : Bytes) (args : List Value) : Value :=
  let x := ((args.head?).map (Value.toNumber host)).getD .nan
  if name = ascii "abs" then .number x.abs
  else if name = ascii "floor" then .number x.floor
  else if name = ascii "ceil" then .number x.ceil
  else if name = ascii "sqrt" then .number x.sqrt
  else .undefined

end Roar
