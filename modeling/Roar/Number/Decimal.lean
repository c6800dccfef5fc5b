import Roar.Bytes
import Roar.Number.Arithmetic

/-!
# Numbers in decimal

`Number.ofDecimal` reads a decimal as the nearest double, and `Number.text` writes a number.

The digits written are found by trying one digit, two digits and so on: for each count the number
is rounded to the nearest decimal of so many digits, and the first that reads back as the same
double is taken; 17 digits always do. Zeros at the end are dropped.

The digits `d₁…dₖ` of the value `0.d₁…dₖ · 10 ^ n` are laid out (`Decimal.layout`) as digits and
zeros for `k ≤ n ≤ 21`, with a point inside for `0 < n ≤ 21`, after `0.` and zeros for
`-6 < n ≤ 0`, and with an exponent otherwise.
-/

namespace Roar

/-- `10 ^ k`. -/
def pow10 (k : Nat) : Nat := Nat.pow 10 k

/-- The first `k` from a start on with `n < 10 ^ k`, if it is among the next `fuel`. -/
def digitCountFrom (n : Nat) : Nat → Nat → Nat
  | 0, k => k
  | fuel + 1, k => if n < pow10 k then k else digitCountFrom n fuel (k + 1)

/-- How many decimal digits a natural number has. Since `10 ^ 1233 < 2 ^ 4096`, a number with the
leading bit `b` has more than `1233 * b / 4096` of them, so the count begins there. -/
def digitCount (n : Nat) : Nat := digitCountFrom n (n.log2 + 1) (n.log2 * 1233 / 4096 + 1)

/-- The decimal `coefficient · 10 ^ exponent`. -/
structure Decimal where
  coefficient : Nat
  exponent : Int
deriving DecidableEq, Repr

namespace Decimal

/-- The value of a text of decimal digits. -/
def digitsValue (digits : Bytes) : Nat :=
  digits.foldl (fun value c => 10 * value + (c - byte '0').toNat) 0

/-- The decimal of a numeral: digits, and perhaps a point and more digits. -/
def ofNumeral (numeral : Bytes) : Decimal :=
  let whole := numeral.takeWhile Byte.isDigit
  let fraction := (numeral.dropWhile Byte.isDigit).drop 1
  ⟨digitsValue (whole ++ fraction), -fraction.length⟩

/-- The decimal of `p` digits nearest to so many units, a tie going to the even last digit. A unit
is `5 ^ 1074 · 10 ^ -1074`, so the units are a decimal with finitely many digits themselves. -/
def nearest (units p : Nat) : Decimal :=
  let exact := units * Nat.pow 5 1074
  let dropped := digitCount exact - p
  ⟨roundDiv exact (pow10 dropped), dropped - 1074⟩

/-- The digits without the zeros at the end, as they are written. -/
def digits (d : Decimal) : Bytes :=
  ((decimal d.coefficient).reverse.dropWhile (· == byte '0')).reverse

/-- The `n` for which the value is `0.d₁…dₖ · 10 ^ n`. -/
def pointPosition (d : Decimal) : Int := (decimal d.coefficient).length + d.exponent

/-- The digits with the point at position `n`. -/
def layout (digits : Bytes) (n : Int) : Bytes :=
  let k : Int := digits.length
  if k ≤ n ∧ n ≤ 21 then
    digits ++ List.replicate (n - k).toNat (byte '0')
  else if 0 < n ∧ n ≤ 21 then
    digits.take n.toNat ++ ascii "." ++ digits.drop n.toNat
  else if -6 < n ∧ n ≤ 0 then
    ascii "0." ++ List.replicate (-n).toNat (byte '0') ++ digits
  else
    let fraction := if 1 < k then ascii "." ++ digits.drop 1 else []
    let sign := if 0 ≤ n - 1 then ascii "+" else ascii "-"
    digits.take 1 ++ fraction ++ ascii "e" ++ sign ++ decimal (n - 1).natAbs

end Decimal

namespace Number

/-- The double nearest to a decimal. -/
def ofDecimal (d : Decimal) : Number :=
  round false (d.coefficient * pow10 d.exponent.toNat * one) (pow10 (-d.exponent).toNat)

/-- The decimal reads back as so many units. -/
def readsBack (units : Nat) (d : Decimal) : Bool :=
  (ofDecimal d).rank == some (units : Int)

/-- The nearest decimal of `p` digits if it reads back, else that of `p + 1` digits, and so on;
after `n` failures the next one is taken without a check. -/
def shortestFrom (units : Nat) : Nat → Nat → Decimal
  | 0, p => Decimal.nearest units p
  | n + 1, p =>
    let d := Decimal.nearest units p
    if readsBack units d then d else shortestFrom units n (p + 1)

/-- The first of the nearest decimals of 1, 2, … digits that reads back. One of 17 digits always
does. -/
def shortest (units : Nat) : Decimal := shortestFrom units 16 1

/-- The text of a number. Neither a NaN nor a zero shows its sign. -/
def text : Number → Bytes
  | .nan => ascii "NaN"
  | .infinity negative => if negative then ascii "-Infinity" else ascii "Infinity"
  | .finite negative units _ =>
    if units = 0 then ascii "0"
    else
      let d := shortest units
      (if negative then ascii "-" else []) ++ Decimal.layout d.digits d.pointPosition

end Number

end Roar
