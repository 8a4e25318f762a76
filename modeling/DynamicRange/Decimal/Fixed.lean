import DynamicRange.Decimal.Basic

/-!
# Decimals with a fixed number of places

The exact value of a float, rounded to a given number of places with ties to even.
-/

namespace DynamicRange.Decimal

/-- The digits of `n` hundredths, thousandths and so on, with a point before the last `places`. -/
def pointed (places n : Nat) : List Char :=
  let ds := digits n
  let padded := List.replicate (places + 1 - ds.length) '0' ++ ds
  let whole := padded.take (padded.length - places)
  if places = 0 then whole else whole ++ '.' :: padded.drop (padded.length - places)

open Float.Model in
/-- The text of an exact float with the given number of places. Negative values keep their sign,
also when they round to zero. -/
def fixed (places : Nat) (x : UnpackedFloat) : String :=
  let sign (s : UnpackedFloat.Sign) : String := if s == .negative then "-" else ""
  match x with
  | .notANumber => "NaN"
  | .infinity s => sign s ++ "inf"
  | .zero s => sign s ++ String.ofList (pointed places 0)
  | .finite s mantissa exponent _ =>
    let v := (Magnitude.ofBinary mantissa exponent).scale (-places)
    sign s ++ String.ofList (pointed places (roundDiv v))

/-- The text of a single-precision number with the given number of places. -/
def fixedSingle (places : Nat) (x : Float32) : String := fixed places x.toModel.unpack

/-- The text of a double with the given number of places. -/
def fixedDouble (places : Nat) (x : Float) : String := fixed places x.toModel.unpack

end DynamicRange.Decimal
