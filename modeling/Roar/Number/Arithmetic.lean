import Roar.Number.Basic

/-!
# Arithmetic on numbers

Every operation is the exact one followed by one rounding to the nearest double, a tie going to
the even neighbour (`Number.round`). The remainder has the sign of its dividend and needs no
rounding.

* `roundDiv n d`: the quotient `n / d` rounded to the nearest integer.
* `Number.round`: a rational number of units rounded to a double, or to an infinity.
* `Number.powerOfTwo?`: the exponent of a multiplier that a shift can stand for.
-/

namespace Roar

/-- The quotient rounded to the nearest integer, a tie going to the even one. -/
def roundDiv (n d : Nat) : Nat :=
  let q := n / d
  let r := n % d
  if 2 * r < d then q else if d < 2 * r then q + 1 else q + q % 2

/-- The largest natural number whose square is at most `n`, found bit by bit. -/
def squareRoot (n : Nat) : Nat :=
  go (n.log2 / 2 + 1) 0
where
  go : Nat → Nat → Nat
    | 0, root => root
    | k + 1, root =>
      let next := root + pow2 k
      if next * next ≤ n then go k next else go k root

namespace Number

/-- The double nearest to `num / den` units. The last of the 53 bits kept stands for
`2 ^ shift` units. -/
def round (negative : Bool) (num den : Nat) : Number :=
  let shift := (num / den).log2 - 52
  ofUnits negative (roundDiv num (den * pow2 shift) * pow2 shift)

def neg : Number → Number
  | .nan => .nan
  | .infinity negative => .infinity (!negative)
  | .finite negative units h => .finite (!negative) units h

def abs : Number → Number
  | .nan => .nan
  | .infinity _ => .infinity false
  | .finite _ units h => .finite false units h

/-- Sum. A sum of zero is negative only if both operands are. -/
def add : Number → Number → Number
  | .nan, _ => .nan
  | _, .nan => .nan
  | .infinity s, .infinity t => if s = t then .infinity s else .nan
  | .infinity s, .finite .. => .infinity s
  | .finite .., .infinity t => .infinity t
  | .finite s m _, .finite t n _ =>
    let sum := signed s m + signed t n
    if sum = 0 then zero (s && t) else round (decide (sum < 0)) sum.natAbs 1

def sub (a b : Number) : Number := a.add b.neg

def mul : Number → Number → Number
  | .nan, _ => .nan
  | _, .nan => .nan
  | .infinity s, .infinity t => .infinity (s != t)
  | .infinity s, .finite t n _ => if n = 0 then .nan else .infinity (s != t)
  | .finite s m _, .infinity t => if m = 0 then .nan else .infinity (s != t)
  | .finite s m _, .finite t n _ => round (s != t) (m * n) one

def div : Number → Number → Number
  | .nan, _ => .nan
  | _, .nan => .nan
  | .infinity _, .infinity _ => .nan
  | .infinity s, .finite t _ _ => .infinity (s != t)
  | .finite s _ _, .infinity t => zero (s != t)
  | .finite s m _, .finite t n _ =>
    if n = 0 then (if m = 0 then .nan else .infinity (s != t))
    else round (s != t) (m * one) n

/-- Remainder of the quotient rounded toward zero, with the sign of the dividend. -/
def rem : Number → Number → Number
  | .nan, _ => .nan
  | _, .nan => .nan
  | .infinity _, _ => .nan
  | .finite s m h, .infinity _ => .finite s m h
  | .finite s m _, .finite _ n _ => if n = 0 then .nan else ofUnits s (m % n)

/-- The next integer toward zero, or away from it. -/
def toInteger (away : Bool) : Number → Number
  | .finite s m _ => ofUnits s ((if away then (m + (one - 1)) / one else m / one) * one)
  | a => a

/-- The largest integer that is not above the number. -/
def floor : Number → Number
  | .finite s m h => toInteger s (.finite s m h)
  | a => a

/-- The smallest integer that is not below the number. -/
def ceil : Number → Number
  | .finite s m h => toInteger (!s) (.finite s m h)
  | a => a

/-- Square root; the root of a negative zero is that zero. The exact root lies between two
neighbouring numbers of units where it is none itself, and half a unit stands for the rest. -/
def sqrt : Number → Number
  | .nan => .nan
  | .infinity negative => if negative then .nan else .infinity false
  | .finite s m h =>
    if m = 0 then .finite s m h
    else if s then .nan
    else
      let root := squareRoot (m * one)
      round false (2 * root + if root * root = m * one then 0 else 1) 2

/-- The `k` from 1 to 30 for which the number is `2 ^ k`. -/
def powerOfTwo? : Number → Option Nat
  | .finite false units _ =>
    let k := units.log2 - 1074
    if 1 ≤ k ∧ k ≤ 30 ∧ units = pow2 (1074 + k) then some k else none
  | _ => none

/-- A natural number as a double. -/
def ofNat (n : Nat) : Number := round false (n * one) 1

end Number

end Roar
