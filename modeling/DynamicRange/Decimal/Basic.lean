/-!
# Decimals

A decimal is a natural number of units of a power of ten. This module reads one into single
precision, and compares one exactly with a quotient of natural numbers.

## Main definitions

* `Decimal`, `Decimal.toSingle`, `Decimal.toDouble`
* `Magnitude`: the exact absolute value of a finite float, as a quotient
* `roundDiv`: a quotient rounded to nearest, ties to even
* `digits`: the characters of a natural number
-/

namespace DynamicRange

/-- The number `units * 10 ^ exponent`. -/
structure Decimal where
  /-- The digits, read as one number. -/
  units : Nat
  /-- The power of ten that one unit stands for. -/
  exponent : Int
deriving DecidableEq, Repr

namespace Decimal

/-- The decimal in single precision, rounded to nearest with ties to even. -/
def toSingle (d : Decimal) : Float32 := ⟨.ofScientific d.units d.exponent⟩

/-- The decimal in double precision, rounded to nearest with ties to even. -/
def toDouble (d : Decimal) : Float :=
  .ofScientific d.units (d.exponent < 0) d.exponent.natAbs

/-- The characters of a natural number, most significant first. -/
def digits (n : Nat) : List Char := Nat.toDigits 10 n

/-- The exact value `num / den`. -/
structure Magnitude where
  num : Nat
  /-- The denominator, which is not zero. -/
  den : Nat

/-- The value `mantissa * 2 ^ exponent`. -/
def Magnitude.ofBinary (mantissa : Nat) (exponent : Int) : Magnitude where
  num := mantissa <<< exponent.toNat
  den := 1 <<< (-exponent).toNat

/-- The quotient in units of `10 ^ exponent`. -/
def Magnitude.scale (v : Magnitude) (exponent : Int) : Magnitude where
  num := v.num * Nat.pow 10 (-exponent).toNat
  den := v.den * Nat.pow 10 exponent.toNat

/-- The quotient rounded to the nearest natural number, ties to the even one. -/
def roundDiv (v : Magnitude) : Nat :=
  let q := v.num / v.den
  let twice := 2 * (v.num % v.den)
  if twice < v.den then q
  else if v.den < twice then q + 1
  else q + q % 2

end Decimal

end DynamicRange
