import DynamicRange.Scalar.Exponential
import DynamicRange.Scalar.Logarithm

/-!
# Elementary functions

The functions that the static curve needs beside arithmetic. The curve is stated for any scalars
that have them, so that it can be evaluated in single precision and reasoned about over the reals.
-/

namespace DynamicRange

/-- Scalars with an exponential, a natural logarithm and a square root. -/
class Elementary (α : Type) where
  exp : α → α
  ln : α → α
  sqrt : α → α

instance : Elementary Float32 where
  exp := Scalar.exp
  ln := Scalar.ln
  sqrt := Float32.sqrt

end DynamicRange
