/-!
# Numbers

A LionCode number is a double: 53 significant bits, with a smallest positive value of `2 ^ -1074`.
Every finite one is a whole number of such smallest units, so it is kept as a sign and a natural
number of units, which makes sums, remainders and comparisons those of integers.

* `Representable n`: `n` units are a double.
* `Number.rank` orders the numbers that can be ordered; `==`, `<` and `≤` go by it, so the two
  zeros are equal and a NaN is equal to nothing.
* `Number.toBits` and `Number.ofBits` give and read the 64-bit word of a number.
-/

namespace Roar

/-- `2 ^ k`. -/
def pow2 (k : Nat) : Nat := Nat.pow 2 k

theorem pow2_pos (k : Nat) : 0 < pow2 k := Nat.two_pow_pos k

/-- So many units are a finite double: below `2 ^ 1024` in value, and with nothing but zeros after
the leading 53 bits. -/
def Representable (units : Nat) : Prop :=
  units < pow2 2098 ∧ pow2 (units.log2 - 52) ∣ units

instance (units : Nat) : Decidable (Representable units) :=
  inferInstanceAs (Decidable (_ ∧ _))

/-- A double. The sign of a finite number is kept apart from its magnitude, so zero has two. -/
inductive Number where
  | nan
  | infinity (negative : Bool)
  | finite (negative : Bool) (units : Nat) (exact : Representable units)
deriving DecidableEq

namespace Number

/-- The number one, counted in units. -/
def one : Nat := pow2 1074

theorem representable_zero : Representable 0 := ⟨pow2_pos _, Nat.dvd_zero _⟩

/-- The zero of a sign. -/
def zero (negative : Bool) : Number := .finite negative 0 representable_zero

instance : Inhabited Number := ⟨zero false⟩

/-- So many units, or an infinity where no double has them. -/
def ofUnits (negative : Bool) (units : Nat) : Number :=
  if h : Representable units then .finite negative units h else .infinity negative

/-- A magnitude in units with its sign. -/
def signed (negative : Bool) (units : Nat) : Int := if negative then -units else units

/-! ## Order -/

/-- The place of a number on the line, in units, an infinity standing beyond all finite ones.
A NaN has no place. -/
def rank : Number → Option Int
  | .nan => none
  | .infinity negative => some (signed negative (pow2 2098))
  | .finite negative units _ => some (signed negative units)

/-- A test on the places of two numbers, false where one of them has none. -/
def relate (test : Int → Int → Bool) (a b : Number) : Bool :=
  match a.rank, b.rank with
  | some x, some y => test x y
  | _, _ => false

/-- Equality of value: `0` and `-0` are equal, and a NaN is equal to nothing. -/
def eq (a b : Number) : Bool := relate (fun x y => decide (x = y)) a b

def lt (a b : Number) : Bool := relate (fun x y => decide (x < y)) a b

def le (a b : Number) : Bool := relate (fun x y => decide (x ≤ y)) a b

/-- Equal to zero, of either sign. -/
def isZero (a : Number) : Bool := a.eq (zero false)

/-! ## Words -/

/-- The 64-bit word of a number: sign, eleven bits of exponent, 52 bits of fraction. -/
def toBits : Number → UInt64
  | .nan => 0x7ff8000000000000
  | .infinity negative => UInt64.ofNat (signBit negative + 2047 * pow2 52)
  | .finite negative units _ =>
    if units < pow2 52 then UInt64.ofNat (signBit negative + units)
    else
      let shift := units.log2 - 52
      UInt64.ofNat (signBit negative + (shift + 1) * pow2 52 + (units / pow2 shift - pow2 52))
where
  signBit (negative : Bool) : Nat := if negative then pow2 63 else 0

/-- The number of a 64-bit word. -/
def ofBits (word : UInt64) : Number :=
  let negative := decide (pow2 63 ≤ word.toNat)
  let exponent := word.toNat / pow2 52 % pow2 11
  let fraction := word.toNat % pow2 52
  if exponent = 2047 then
    if fraction = 0 then .infinity negative else .nan
  else if exponent = 0 then ofUnits negative fraction
  else ofUnits negative ((pow2 52 + fraction) * pow2 (exponent - 1))

end Number

end Roar
