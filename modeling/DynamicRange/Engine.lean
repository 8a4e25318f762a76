import DynamicRange.Envelope
import DynamicRange.Groups
import DynamicRange.Knee
import DynamicRange.Link
import DynamicRange.Sample
import DynamicRange.Scalar.Decibel
import DynamicRange.Settings.Control

/-!
# Engine

The engine follows the level of a detector signal and multiplies a main signal by the gain of the
static curve. The channels of the detector drive one level, so all channels of a main sample are
multiplied by the same factor.

The knee and the coefficients of the envelope follow from the settings; they are kept beside them
so that they need not be derived for each sample.

## Main definitions

* `Engine`, `Engine.ofSettings`
* `Engine.step`: the factor for one detector sample
* `Engine.process`, `Engine.processInPlace`: whole signals; `Engine.process?` and
  `Engine.processInPlace?` first check that the buffers are long enough
* `Engine.set`, `Engine.setSettings`, `Engine.setRate`, `Engine.reset`
-/

namespace DynamicRange

/-- A compressor that takes samples, with an explicit detector. -/
structure Engine where
  settings : Settings
  knee : Knee Float32
  envelope : Envelope
  /-- The gain of the last sample, without make-up and mix. -/
  lastGain : Float32

namespace Engine

/-- The engine of given settings at a sample rate, or the first setting out of range. -/
def ofSettings (s : Settings) (rate : Float32) : Except RangeError Engine := do
  s.validate
  return {
    settings := s
    knee := .make s.threshold s.ratio s.knee
    envelope := .ofTimes rate s.attack s.release
    lastGain := 1 }

/-- The sample rate. -/
def rate (e : Engine) : Float32 := e.envelope.rate

/-- The detector level. -/
def level (e : Engine) : Float32 := e.envelope.reading

/-- The gain of the last sample in decibels, without make-up and mix. -/
def gainReduction (e : Engine) : Float32 := Scalar.decibelsOfGain e.lastGain

/-- Takes over settings without a check. The level and the meter stay. -/
def adopt (e : Engine) (s : Settings) : Engine :=
  { e with
    settings := s
    knee := .make s.threshold s.ratio s.knee
    envelope := (e.envelope.setAttack s.attack).setRelease s.release }

/-- Takes over settings, unless one is out of range. -/
def setSettings (e : Engine) (s : Settings) : Except RangeError Engine := do
  s.validate
  return e.adopt s

/-- Sets one control to a flat value. -/
def set (e : Engine) (c : Control) (x : Float32) : Engine := e.adopt (e.settings.set c x)

/-- Sets the sample rate. The level and the meter stay. -/
def setRate (e : Engine) (rate : Float32) : Engine :=
  { e with envelope := e.envelope.setRate rate }

/-- Puts the level and the meter back to their start. -/
def reset (e : Engine) : Engine := { e with envelope := e.envelope.reset, lastGain := 1 }

/-- The gain for a detector level. -/
def gainAt (e : Engine) (level : Float32) : Float32 := e.knee.applied e.settings.detection level

/-- The factor for a gain: made up, and blended with the unchanged signal. -/
def blend (e : Engine) (gain : Float32) : Float32 :=
  gain * e.settings.makeup * e.settings.mix + (1 - e.settings.mix)

/-- Takes in one detector sample and gives the factor for the main sample beside it. -/
def step (e : Engine) (detector : List Sample) : Float32 × Engine :=
  let input := detectorInput e.settings.link e.settings.detection (detector.map Sample.value)
  let envelope := e.envelope.process input
  let gain := e.gainAt envelope.reading
  (e.blend gain, { e with envelope, lastGain := gain })

/-- Multiplies the channels of one sample by a factor. -/
def scale (factor : Float32) (sample : List Sample) : List Sample := sample.map (.scale factor)

/-- One main sample beside its detector sample. The samples done come last one first. -/
def advance (state : List (List Sample) × Engine) (pair : List Sample × List Sample) :
    List (List Sample) × Engine :=
  let (factor, e) := state.2.step pair.2
  (scale factor pair.1 :: state.1, e)

/-- Compresses the first `n` samples of `main` by the level of the first `n` of `detector`. Later
samples stay. -/
def process (e : Engine) (main : List Sample) (mainChannels : Nat) (detector : List Sample)
    (detectorChannels n : Nat) : List Sample × Engine :=
  let pairs := (groups mainChannels n main).zip (groups detectorChannels n detector)
  let (done, e) := pairs.foldl advance ([], e)
  (done.reverse.flatten ++ main.drop (n * mainChannels), e)

/-- One sample that is its own detector. The samples done come last one first. -/
def advanceInPlace (state : List (List Sample) × Engine) (sample : List Sample) :
    List (List Sample) × Engine :=
  let (factor, e) := state.2.step sample
  (scale factor sample :: state.1, e)

/-- Compresses the first `n` samples of a signal by its own level. Later samples stay. -/
def processInPlace (e : Engine) (signal : List Sample) (channels n : Nat) :
    List Sample × Engine :=
  let (done, e) := (groups channels n signal).foldl advanceInPlace ([], e)
  (done.reverse.flatten ++ signal.drop (n * channels), e)

/-- `process`, if both signals have channels and `n` samples. -/
def process? (e : Engine) (main : List Sample) (mainChannels : Nat) (detector : List Sample)
    (detectorChannels n : Nat) : Option (List Sample × Engine) :=
  if 0 < mainChannels ∧ 0 < detectorChannels ∧ n * mainChannels ≤ main.length ∧
      n * detectorChannels ≤ detector.length then
    some (e.process main mainChannels detector detectorChannels n)
  else none

/-- `processInPlace`, if the signal has channels and `n` samples. -/
def processInPlace? (e : Engine) (signal : List Sample) (channels n : Nat) :
    Option (List Sample × Engine) :=
  if 0 < channels ∧ n * channels ≤ signal.length then some (e.processInPlace signal channels n)
  else none

instance : Parametric Engine where
  parameterCount e := Parametric.parameterCount e.settings
  descriptor? e := Parametric.descriptor? e.settings
  parameter e := Parametric.parameter e.settings
  setParameter e i x := e.adopt (Parametric.setParameter e.settings i x)

end Engine

end DynamicRange
