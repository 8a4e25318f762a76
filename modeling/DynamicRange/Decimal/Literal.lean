import DynamicRange.Decimal.Basic
import DynamicRange.Scalar.Conversion
import DynamicRange.Text.Case

/-!
# Number literals

Reads numbers from text: naturals in decimal, and single-precision literals, that is an optional
sign followed by `inf`, `infinity` or `nan` in any case, or by digits with an optional point
(digits on at least one side) and an optional exponent. Nothing else is a literal: no blanks, no
separators, no other digits than the ASCII ones.

## Main definitions

* `Decimal.natural?`: digits as a number
* `Decimal.splitDigits`: the longest prefix of digits
* `Decimal.unsigned?`: digits, point and exponent
* `Decimal.single?`: the value of a literal, correctly rounded
-/

namespace DynamicRange.Decimal

/-- The value of a list of digit characters. -/
def value (ds : List Char) : Nat := ds.foldl (fun n c => 10 * n + (c.toNat - '0'.toNat)) 0

/-- Splits a text into its longest prefix of digits and the rest. -/
def splitDigits (cs : List Char) : List Char × List Char :=
  (cs.takeWhile Char.isDigit, cs.dropWhile Char.isDigit)

/-- A nonempty text of digits as a number. -/
def natural? (cs : List Char) : Option Nat :=
  if cs.isEmpty || !cs.all Char.isDigit then none else some (value cs)

/-- A natural number with an optional plus sign, of at most `top`. -/
def boundedNatural? (top : Nat) (cs : List Char) : Option Nat := do
  let n ← natural? (match cs with | '+' :: rest => rest | _ => cs)
  if n ≤ top then some n else none

/-- Takes off an optional sign; the flag tells whether it is a minus. -/
def splitSign : List Char → Bool × List Char
  | '+' :: rest => (false, rest)
  | '-' :: rest => (true, rest)
  | rest => (false, rest)

/-- An optional exponent that ends the text. -/
def exponent? : List Char → Option Int
  | [] => some 0
  | c :: rest =>
    if c == 'e' || c == 'E' then
      let (negative, ds) := splitSign rest
      (natural? ds).map fun n => if negative then -(n : Int) else n
    else none

/-- Digits with an optional point and exponent, as an exact decimal. -/
def unsigned? (cs : List Char) : Option Decimal :=
  let (whole, rest) := splitDigits cs
  let (fraction, rest) := match rest with
    | '.' :: rest => splitDigits rest
    | rest => ([], rest)
  if whole.isEmpty && fraction.isEmpty then none
  else (exponent? rest).map fun e => ⟨value (whole ++ fraction), e - fraction.length⟩

/-- The decimal in single precision. An exponent far outside the range of the format decides the
result at once, so that no huge power of ten is ever computed. -/
def toSingleClamped (d : Decimal) : Float32 :=
  let size := (digits d.units).length + d.exponent
  if d.units = 0 || size < -60 then 0
  else if 60 < size then Scalar.infinity
  else d.toSingle

/-- The value of a literal. -/
def single? (cs : List Char) : Option Float32 :=
  let (negative, rest) := splitSign cs
  let word := Text.lower rest
  let magnitude :=
    if word == "inf".toList || word == "infinity".toList then some Scalar.infinity
    else if word == "nan".toList then some Scalar.nan
    else (unsigned? rest).map toSingleClamped
  magnitude.map fun x => if negative then -x else x

end DynamicRange.Decimal
