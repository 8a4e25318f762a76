import DynamicRange.Scalar.Conversion

/-!
# Envelope follower

The level of a detector signal, smoothed by a one-pole recursion whose coefficient depends on the
direction: attack while the input is above the level, release otherwise. The coefficients follow
from the times and the sample rate. Changing a time or the rate keeps the level.

The recursion and the coefficient are stated for any scalars; the follower runs them in double
precision, because with long times the step of a sample falls below the precision of a single.

## Main definitions

* `smoothingCoefficient`, `flushTiny`, `follow`: the arithmetic
* `Envelope`: the follower, with `Envelope.process` and the setters
-/

namespace DynamicRange

section Arithmetic

variable {α : Type} [Add α] [Sub α] [Mul α] [Div α] [Neg α] [LT α] [DecidableLT α]
  [OfNat α 0] [OfNat α 1] [OfNat α 4000] [OfScientific α]

/-- The coefficient of a time constant: `4000 / (time * rate)`, at most one. -/
@[specialize]
def smoothingCoefficient (timeMs rate : α) : α :=
  let coefficient := 1 / (timeMs * rate / 4000)
  if coefficient < 1 then coefficient else 1

/-- Zero for values of magnitude below `1e-20`, and the value itself otherwise. -/
@[specialize]
def flushTiny (x : α) : α := if -1e-20 < x ∧ x < 1e-20 then 0 else x

/-- The level after one magnitude `x`: it moves toward `x` by the share `attack` when `x` lies
above it, and by the share `release` otherwise. -/
@[specialize]
def follow (attack release level x : α) : α :=
  flushTiny (level + (x - level) * (if level < x then attack else release))

end Arithmetic

/-- A follower of the detector level. -/
structure Envelope where
  /-- The current level, linear and not negative. -/
  level : Float
  /-- The share of the distance covered per sample while the input is above the level. -/
  attackCoefficient : Float
  /-- The share of the distance covered per sample otherwise. -/
  releaseCoefficient : Float
  /-- The sample rate the coefficients belong to, in Hz. -/
  rate : Float32
  /-- The attack time in milliseconds. -/
  attack : Float32
  /-- The release time in milliseconds. -/
  release : Float32

namespace Envelope

/-- The coefficient of a time at a rate, both in single precision. -/
def coefficient (timeMs rate : Float32) : Float :=
  smoothingCoefficient (Scalar.widen timeMs) (Scalar.widen rate)

/-- Derives both coefficients anew from the times and the rate. -/
def derive (e : Envelope) : Envelope :=
  { e with
    attackCoefficient := coefficient e.attack e.rate
    releaseCoefficient := coefficient e.release e.rate }

/-- A follower at level zero with the given times. -/
def ofTimes (rate attack release : Float32) : Envelope :=
  derive
    { level := 0, attackCoefficient := 1, releaseCoefficient := 1, rate, attack, release }

/-- A follower with 20 ms of attack and 250 ms of release. -/
def ofRate (rate : Float32) : Envelope := ofTimes rate 20 250

instance : Inhabited Envelope := ⟨ofRate 48000⟩

/-- Sets the attack time. The level stays. -/
def setAttack (e : Envelope) (attack : Float32) : Envelope := { e with attack }.derive

/-- Sets the release time. The level stays. -/
def setRelease (e : Envelope) (release : Float32) : Envelope := { e with release }.derive

/-- Sets the sample rate. The level stays. -/
def setRate (e : Envelope) (rate : Float32) : Envelope := { e with rate }.derive

/-- Takes in one detector sample, rectified. -/
def process (e : Envelope) (input : Float32) : Envelope :=
  { e with
    level := follow e.attackCoefficient e.releaseCoefficient e.level (Scalar.widen input.abs) }

/-- The level in single precision. -/
def reading (e : Envelope) : Float32 := Scalar.narrow e.level

/-- Puts the level back to zero. -/
def reset (e : Envelope) : Envelope := { e with level := 0 }

/-- Takes in a list of detector samples and gives the reading after each. -/
def processAll (e : Envelope) (inputs : List Float32) : List Float32 × Envelope :=
  let (readings, last) := inputs.foldl
    (fun (readings, e) x =>
      let e := e.process x
      (e.reading :: readings, e))
    ([], e)
  (readings.reverse, last)

end Envelope

end DynamicRange
