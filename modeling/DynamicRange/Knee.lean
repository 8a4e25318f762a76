import DynamicRange.Hermite
import DynamicRange.Scalar.Elementary
import DynamicRange.Settings.Basic

/-!
# Static curve with a soft knee

The curve gives the output level for a steady input level, both as natural logarithms. Above the
knee it is the line of the ratio through the threshold. Inside the knee a cubic joins the identity,
at the lower end, to that line, at the upper end, with the slopes of both. Below the knee the
signal is left alone.

## Main definitions

* `Knee`, `Knee.make`: threshold, ratio and the ends of the knee, for any scalars
* `Knee.output`: the curve above the lower end of the knee
* `Knee.gain`, `Knee.applied`: the gain for a detector level above that end, and for any level
-/

namespace DynamicRange

/-- The shape of a static curve. -/
structure Knee (α : Type) where
  /-- The logarithm of the threshold. -/
  threshold : α
  /-- The width of the knee, as the ratio of the levels at its two ends. -/
  width : α
  ratio : Ratio α
  /-- The linear level at the lower end. -/
  linearStart : α
  /-- The linear level at the upper end. -/
  linearStop : α
  /-- The logarithm of the level at the lower end. -/
  start : α
  /-- The logarithm of the level at the upper end. -/
  stop : α
  /-- The logarithm of the output level at the upper end. -/
  compressedStop : α

namespace Knee

variable {α : Type} [Add α] [Sub α] [Mul α] [Div α] [Neg α] [LT α] [DecidableLT α] [LE α]
  [DecidableLE α] [OfNat α 0] [OfNat α 1] [OfNat α 2] [OfNat α 3] [OfScientific α] [Elementary α]

/-- Whether the knee has no width. -/
@[specialize]
def isHard (k : Knee α) : Bool := k.width ≤ 1

/-- The output level for the level `x`, both logarithms. -/
@[specialize]
def output (k : Knee α) (x : α) : α :=
  if ¬k.isHard ∧ x < k.stop then
    hermite x k.start k.stop k.start k.compressedStop 1 k.ratio.slope
  else k.ratio.line k.threshold x

/-- The knee of a threshold, a ratio and a width. -/
@[specialize]
def make (threshold : α) (ratio : Ratio α) (width : α) : Knee α :=
  let linearStart := threshold / Elementary.sqrt width
  let linearStop := threshold * Elementary.sqrt width
  let threshold := Elementary.ln threshold
  let stop := Elementary.ln linearStop
  { threshold, width, ratio, linearStart, linearStop, stop
    start := Elementary.ln linearStart
    compressedStop := ratio.line threshold stop }

/-- The logarithm of the magnitude behind a detector level. Under `rms` the level is a square. -/
@[specialize]
def levelLog (detection : Detection) (level : α) : α :=
  match detection with
  | .peak => Elementary.ln level
  | .rms => Elementary.ln level * 0.5

/-- The gain for a detector level above the lower end of the knee. -/
@[specialize]
def gain (k : Knee α) (detection : Detection) (level : α) : α :=
  let x := levelLog detection level
  -- the ratio of output to input is a difference of logarithms
  Elementary.exp (k.output x - x)

/-- Whether the curve is applied to a detector level. -/
def engages (k : Knee α) (level : α) : Prop := 0 < level ∧ k.linearStart < level

@[inline]
instance (k : Knee α) (level : α) : Decidable (k.engages level) :=
  inferInstanceAs (Decidable (0 < level ∧ k.linearStart < level))

/-- The gain for any detector level: that of the curve, or one. -/
@[specialize]
def applied (k : Knee α) (detection : Detection) (level : α) : α :=
  if k.engages level then k.gain detection level else 1

end Knee

end DynamicRange
