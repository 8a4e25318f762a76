import DynamicRange.Scalar.Conversion
import DynamicRange.Settings.Basic

/-!
# Linked channels

All channels of a detector sample drive one level. They combine to one magnitude, which is squared
under the `rms` law.
-/

namespace DynamicRange

/-- The magnitude of one sample over all its channels. The sum of the average starts from `-0`. -/
def LinkMode.combine (mode : LinkMode) (channels : List Float32) : Float32 :=
  match mode with
  | .average => channels.foldl (fun sum x => sum + x.abs) (-0.0) / .ofNat channels.length
  | .maximum => channels.foldl (fun peak x => Scalar.larger peak x.abs) 0

/-- The quantity whose level is followed. -/
def Detection.detect (detection : Detection) (magnitude : Float32) : Float32 :=
  match detection with
  | .peak => magnitude
  | .rms => magnitude * magnitude

/-- The detector input for one sample. -/
def detectorInput (mode : LinkMode) (detection : Detection) (channels : List Float32) : Float32 :=
  detection.detect (mode.combine channels)

end DynamicRange
