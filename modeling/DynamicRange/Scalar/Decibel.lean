import DynamicRange.Scalar.Logarithm
import DynamicRange.Scalar.Exponential

/-!
# Decibels

Conversions between a linear gain and its level in decibels, 20 per factor of ten.
-/

namespace DynamicRange.Scalar

/-- The natural logarithm of ten. -/
def lnTen : Float32 := .ofBits 0x40135d8e

/-- The linear gain of a level in decibels. -/
def gainOfDecibels (decibels : Float32) : Float32 := exp (decibels * (lnTen / 20))

/-- The level of a linear gain in decibels. Gains below `1e-10`, and NaN, read as -200 dB. -/
def decibelsOfGain (gain : Float32) : Float32 := ln (larger gain 1e-10) * (20 / lnTen)

end DynamicRange.Scalar
