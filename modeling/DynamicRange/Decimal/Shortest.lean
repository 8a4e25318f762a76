import DynamicRange.Decimal.Basic

/-!
# Shortest decimals

The decimal with the fewest digits that reads back to a given single-precision number, and its
text. For each number of digits the value has two neighbours on the grid of that many digits; the
first grid on which a neighbour reads back wins, of two the nearer, and an exact tie goes up.

## Main definitions

* `Decimal.shortest`: the digits
* `Decimal.text`: the text of a number, always positional and without superfluous zeros
-/

namespace DynamicRange.Decimal

/-- The least power of ten above the value, searched over the range of single precision. -/
def leadingPower (v : Magnitude) : Int :=
  let candidates := (List.range 90).map fun i : Nat => (i : Int) - 46
  (candidates.find? fun k => (v.scale k).num < (v.scale k).den).getD 44

/-- The neighbours of the value on the grid of `10 ^ exponent`, the preferred one first: the nearer,
and the upper one when both are equally near. -/
def neighbours (v : Magnitude) (exponent : Int) : List Decimal :=
  let u := v.scale exponent
  let below : Decimal := ⟨u.num / u.den, exponent⟩
  let above : Decimal := ⟨u.num / u.den + 1, exponent⟩
  if 2 * (u.num % u.den) < u.den then [below, above] else [above, below]

/-- The shortest decimal that reads back to `x`, whose exact absolute value is `v`. Nine digits
always suffice; were they not to, the exact decimal would be returned. -/
def shortest (x : Float32) (v : Magnitude) : Decimal :=
  let power := leadingPower v
  let grids := (List.range 9).map fun n : Nat => power - (n + 1 : Int)
  let exact : Decimal := ⟨(v.scale (-149)).num / (v.scale (-149)).den, -149⟩
  ((grids.flatMap (neighbours v)).find? fun d => d.toSingle == x).getD exact

/-- Drops the last zeros of a list of digits. -/
def stripZeros (ds : List Char) : List Char := (ds.reverse.dropWhile (· == '0')).reverse

/-- Positional text: no exponent, no zeros after the last digit of the fraction, and at least one
digit before the point. -/
def positional (d : Decimal) : List Char :=
  let ds := digits d.units
  -- the number of digits before the point; zero or negative for a small fraction
  let point := ds.length + d.exponent
  if 0 < point then
    let whole := (ds ++ List.replicate (point.toNat - ds.length) '0').take point.toNat
    let fraction := stripZeros (ds.drop point.toNat)
    if fraction.isEmpty then whole else whole ++ '.' :: fraction
  else '0' :: '.' :: (List.replicate (-point).toNat '0' ++ stripZeros ds)

open Float.Model in
/-- The text of a number: the fewest digits that read back, written positionally. Zero keeps its
sign. -/
def text (x : Float32) : String :=
  let sign (s : UnpackedFloat.Sign) : String := if s == .negative then "-" else ""
  match x.toModel.unpack with
  | .notANumber => "NaN"
  | .infinity s => sign s ++ "inf"
  | .zero s => sign s ++ "0"
  | .finite s mantissa exponent _ =>
    let v := Magnitude.ofBinary mantissa exponent
    sign s ++ String.ofList (positional (shortest x.abs v))

end DynamicRange.Decimal
