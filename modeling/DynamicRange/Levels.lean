import DynamicRange.Frame
import DynamicRange.Groups
import DynamicRange.Scalar.Conversion

/-!
# Levels

The peak and the root mean square of samples.

## Main definitions

* `Levels`, `Levels.measure`: over all channels, summed in single precision
* `Levels.ofChannel`: of one channel, summed in double precision
-/

namespace DynamicRange

/-- The levels of a list of samples, linear. -/
structure Levels where
  /-- The root mean square. -/
  rms : Float32
  /-- The largest magnitude. -/
  peak : Float32

namespace Levels

/-- The largest magnitude of a list. NaN is passed over. -/
def peakOf (xs : List Float32) : Float32 := xs.foldl (fun peak x => Scalar.larger peak x.abs) 0

/-- The levels of a list of samples; without samples, those of silence. The sum of squares starts
from `-0`. -/
def measure (xs : List Float32) : Levels :=
  if xs.isEmpty then ⟨0, 0⟩
  else
    let sum := xs.foldl (fun sum x => sum + x * x) (-0.0)
    { rms := (sum / .ofNat xs.length).sqrt, peak := peakOf xs }

/-- The levels of the samples of one channel, given alone. -/
def measureExactly (xs : List Float32) : Levels :=
  let sum := xs.foldl (fun sum x => sum + Scalar.widen x * Scalar.widen x) (0 : Float)
  { rms := if xs.isEmpty then 0 else Scalar.narrow (sum / .ofNat xs.length).sqrt
    peak := peakOf xs }

end Levels

/-- The samples of one channel. -/
def Frame.channel (f : Frame) (channel : Nat) : List Float32 :=
  (groups f.channels f.length f.values).filterMap fun sample => sample[channel]?

/-- The levels of one channel of a frame. -/
def Levels.ofChannel (f : Frame) (channel : Nat) : Levels := measureExactly (f.channel channel)

end DynamicRange
