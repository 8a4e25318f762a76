/-!
# Conversions between scalars

Samples are single precision (`Float32`), the envelope is double precision (`Float`). This module
holds the passages between the two and to the integers, and the comparisons in which a NaN loses.
Everything is computed from the exact value of the argument, rounded at most once.

## Main definitions

* `widen`, `narrow`: single to double (exact) and double to single (to nearest, ties to even)
* `truncate`: the integer part, clamped
* `nearestIndex`: the nearest natural number, halves upward
* `larger`, `smaller`: extrema that return the other operand when one is NaN
-/

namespace DynamicRange.Scalar

open Float.Model (UnpackedFloat)

/-- The value of `x` rounded to nearest, ties to even, in another format. -/
def reround (format : Float.Model.Format) : UnpackedFloat → UnpackedFloat
  | .finite sign mantissa exponent _ => .round format sign mantissa exponent
  | x => x

/-- A single-precision value as a double. Every such value is exact. -/
def widen (x : Float32) : Float := ⟨.pack (reround .binary64 x.toModel.unpack)⟩

/-- A double rounded to single precision, to nearest with ties to even. -/
def narrow (x : Float) : Float32 := ⟨.pack (reround .binary32 x.toModel.unpack)⟩

/-- Positive infinity. -/
def infinity : Float32 := .ofBits 0x7f800000

/-- The one NaN. -/
def nan : Float32 := .ofBits 0x7fc00000

/-- The integer part of `x` toward zero, clamped to `[lo, hi]`; NaN counts as zero. -/
def truncate (lo hi : Int) (x : Float32) : Int :=
  max lo (min hi (x.toModel.unpack.toInt lo hi))

/-- The power `2 ^ k`, for `k` between -126 and 127. -/
def twoPow (k : Int) : Float32 := .ofBits ((k + 127).toNat.toUInt32 <<< 23)

/-- The product `x * 2 ^ k`, for `k` between -226 and 254, rounded once. Large steps are taken in
two multiplications, of which the first is exact for an `x` near 1. -/
def scaleByTwoPow (x : Float32) (k : Int) : Float32 :=
  if 127 < k then x * twoPow 127 * twoPow (k - 127)
  else if k < -126 then x * twoPow (-100) * twoPow (k + 100)
  else x * twoPow k

/-- The natural number nearest to `x`, halves rounded upward. Negative values and NaN give zero,
values beyond 64 bits the largest word. -/
def nearestIndex (x : Float32) : Nat :=
  let top := (1 <<< 64) - 1
  match x.toModel.unpack with
  | .finite .positive mantissa exponent _ =>
    if 0 ≤ exponent then min top (mantissa <<< exponent.toNat)
    else
      let drop := (-exponent).toNat
      min top ((2 * mantissa + (1 <<< drop)) >>> (drop + 1))
  | .infinity .positive => top
  | _ => 0

/-- The larger of two values. If one is NaN, the other is returned. -/
def larger (x y : Float32) : Float32 := if x < y || x.isNaN then y else x

/-- The smaller of two values. If one is NaN, the other is returned. -/
def smaller (x y : Float32) : Float32 := if y < x || x.isNaN then y else x

/-- The value of `x` limited to `[lo, hi]`. NaN stays NaN. -/
def limit (lo hi x : Float32) : Float32 :=
  if x < lo then lo else if hi < x then hi else x

end DynamicRange.Scalar
