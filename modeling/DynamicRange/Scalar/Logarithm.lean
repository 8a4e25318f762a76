import DynamicRange.Scalar.Conversion

/-!
# Natural logarithm

The logarithm in single precision. The argument is split as `2 ^ k * (1 + f)` with `1 + f` between
`√2 / 2` and `√2`; `log (1 + f)` is a polynomial in `s = f / (2 + f)`, and `k * log 2` is added in
two parts so that no bits are lost.
-/

namespace DynamicRange.Scalar

/-- The high part of `log 2`; its product with a small integer is exact. -/
def logTwoHigh : Float32 := .ofBits 0x3f317180

/-- The remainder of `log 2`. -/
def logTwoLow : Float32 := .ofBits 0x3717f7d1

/-- The logarithm of `2 ^ k * x`, where `x` is the positive normal number with the given bits. -/
def lnNormal (k : Int) (bits : UInt32) : Float32 :=
  -- moving the bits by this offset puts the mantissa between √2 / 2 and √2
  let shifted := bits + (0x3f800000 - 0x3f3504f3)
  let k : Float32 := .ofInt (k + (shifted >>> 23).toNat - 127)
  let f := Float32.ofBits ((shifted &&& 0x007fffff) + 0x3f3504f3) - 1
  let s := f / (2 + f)
  let z := s * s
  let w := z * z
  let even := w * (0.40000972152 + w * 0.24279078841)
  let odd := z * (0.66666662693 + w * 0.28498786688)
  let r := odd + even
  let halfSquare := 0.5 * f * f
  s * (halfSquare + r) + k * logTwoLow - halfSquare + f + k * logTwoHigh

/-- The natural logarithm: minus infinity at zero, NaN below. -/
def ln (x : Float32) : Float32 :=
  let bits := x.toBits
  if bits <<< 1 == 0 then -infinity
  else if x.isNaN then x
  else if 0x80000000 ≤ bits then nan
  -- a subnormal number is made normal first
  else if bits < 0x00800000 then lnNormal (-25) (x * twoPow 25).toBits
  else if bits == 0x7f800000 then x
  else if bits == 0x3f800000 then 0
  else lnNormal 0 bits

end DynamicRange.Scalar
