import DynamicRange.Scalar.Conversion

/-!
# Exponential

The exponential in single precision. The argument is reduced to `k * log 2 + r` with `|r|` at most
half of `log 2`, kept as a difference `high - low`; `exp r` is a rational function of `r`, and the
result is scaled by `2 ^ k`.
-/

namespace DynamicRange.Scalar

/-- The high part of `log 2`, short enough for exact products. -/
def reductionHigh : Float32 := .ofBits 0x3f317200

/-- The remainder of `log 2`. -/
def reductionLow : Float32 := .ofBits 0x35bfbe8e

/-- The reciprocal of `log 2`. -/
def reciprocalLogTwo : Float32 := .ofBits 0x3fb8aa3b

/-- The exponential of `k * log 2 + (high - low)`. -/
def expReduced (k : Int) (high low : Float32) : Float32 :=
  let x := high - low
  let square := x * x
  let c := x - square * (1.6666625440e-1 + square * (-2.7667332906e-3))
  let y := 1 + (x * c / (2 - c) - low + high)
  if k == 0 then y else scaleByTwoPow y k

/-- The exponential function. Overflow gives infinity; below the least positive number the result
is zero. -/
def exp (x : Float32) : Float32 :=
  let magnitude := x.toBits &&& 0x7fffffff
  let negative := x.toBits != magnitude
  if x.isNaN then x
  -- from 128 * log 2 on the result is too large, below -150 * log 2 too small
  else if 0x42b17218 ≤ magnitude && !negative then infinity
  else if 0x42cff1b5 ≤ magnitude && negative then 0
  -- beyond half of log 2 the argument is reduced; up to one and a half times it, by one step
  else if 0x3eb17218 < magnitude then
    let k : Int :=
      if 0x3f851592 < magnitude then
        truncate (-2147483648) 2147483647 (reciprocalLogTwo * x + (if negative then -0.5 else 0.5))
      else if negative then -1 else 1
    expReduced k (x - .ofInt k * reductionHigh) (.ofInt k * reductionLow)
  else if 0x39000000 < magnitude then expReduced 0 x 0
  -- next to zero the square is lost in rounding
  else 1 + x

end DynamicRange.Scalar
