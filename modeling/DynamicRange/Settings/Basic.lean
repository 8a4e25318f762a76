import DynamicRange.Decimal.Shortest
import DynamicRange.Scalar.Conversion
import DynamicRange.Text.Case

/-!
# Settings of a compressor

The nine settings that a compressor runs with, the values they may take, and the check of all of
them.

## Main definitions

* `Ratio`: a finite compression ratio or the limit, with `Ratio.line`, the straight part of the
  static curve
* `LinkMode`, `Detection`: how the channels combine, and which level is detected
* `Range`, `RangeError`: the values allowed, and the report of one that is not
* `Settings`, `Settings.validate`
-/

namespace DynamicRange

/-- A compression ratio: so many units of input level for one of output level. -/
inductive Ratio (α : Type) where
  /-- A finite ratio to one. -/
  | finite (r : α)
  /-- The infinite ratio: the output stays at the threshold. -/
  | limit
deriving DecidableEq, BEq, Repr

namespace Ratio

section Curve

variable {α : Type} [Add α] [Sub α] [Div α] [OfNat α 0] [OfNat α 1]

/-- The output level for the level `x` on the line of this ratio through `threshold`. -/
@[specialize]
def line (ratio : Ratio α) (threshold x : α) : α :=
  match ratio with
  | finite r => (x - threshold) / r + threshold
  | limit => threshold

/-- The slope of that line. -/
@[specialize]
def slope : Ratio α → α
  | finite r => 1 / r
  | limit => 0

end Curve

instance : Inhabited (Ratio Float32) := ⟨finite 2⟩

/-- The ratio of a number: infinity is the limit, other numbers are limited to `[1, 20]`. -/
def ofValue (x : Float32) : Ratio Float32 :=
  if x == Scalar.infinity then limit else finite (Scalar.limit 1 20 x)

/-- The ratio as a number; the limit is infinity. -/
def value : Ratio Float32 → Float32
  | finite r => r
  | limit => Scalar.infinity

/-- Whether the ratio is the limit. -/
def isLimit {α : Type} : Ratio α → Bool
  | finite _ => false
  | limit => true

/-- The ratio in words. -/
def text : Ratio Float32 → String
  | finite r => Decimal.text r ++ ":1"
  | limit => "limit"

end Ratio

/-- How the channels of the detector combine to one magnitude. -/
inductive LinkMode where
  | average
  | maximum
deriving DecidableEq, Repr, Inhabited

namespace LinkMode

/-- The label of a mode. -/
def label : LinkMode → String
  | average => "average"
  | maximum => "maximum"

/-- The labels in the order of the indices. -/
def labels : List String := [average, maximum].map label

/-- The index of a mode. -/
def index : LinkMode → Nat
  | average => 0
  | maximum => 1

/-- The mode of an index; all but the first stand for the last mode. -/
def ofIndex : Nat → LinkMode
  | 0 => average
  | _ => maximum

/-- The mode with a label, in any case. -/
def ofName? (name : String) : Option LinkMode :=
  [average, maximum].find? fun mode => Text.sameName mode.label name

end LinkMode

/-- Which level of the detector is followed. -/
inductive Detection where
  /-- The magnitude itself. -/
  | peak
  /-- The square of the magnitude; the curve takes its root. -/
  | rms
deriving DecidableEq, Repr

namespace Detection

instance : Inhabited Detection := ⟨rms⟩

/-- The label of a law. -/
def label : Detection → String
  | peak => "peak"
  | rms => "rms"

/-- The labels in the order of the indices. -/
def labels : List String := [peak, rms].map label

/-- The index of a law. -/
def index : Detection → Nat
  | peak => 0
  | rms => 1

/-- The law of an index; all but the first stand for the last law. -/
def ofIndex : Nat → Detection
  | 0 => peak
  | _ => rms

/-- The law with a label, in any case. -/
def ofName? (name : String) : Option Detection :=
  [peak, rms].find? fun law => Text.sameName law.label name

end Detection

/-- A closed interval of values. Its ends are numbers, since nothing is compared with NaN. -/
structure Range where
  min : Float32
  max : Float32
  ordered : min ≤ max := by decide

namespace Range

/-- From -60 dB to full scale. -/
def threshold : Range := { min := 0.000976563, max := 1 }

/-- The finite ratios. -/
def ratio : Range := { min := 1, max := 20 }

/-- Attack times in milliseconds. -/
def attack : Range := { min := 0.01, max := 2000 }

/-- Release times in milliseconds. -/
def release : Range := { min := 0.01, max := 9000 }

/-- Linear make-up gains. -/
def makeup : Range := { min := 1, max := 64 }

/-- Knee widths, as the ratio of the levels at its two ends. One is a hard knee. -/
def knee : Range := { min := 1, max := 8 }

/-- Shares of the compressed signal. -/
def mix : Range := { min := 0, max := 1 }

end Range

/-- The report of a value outside its range. -/
structure RangeError where
  /-- The stable name of the setting. -/
  id : String
  /-- The value refused. -/
  value : Float32
  range : Range

/-- The report in words. -/
def RangeError.message (e : RangeError) : String :=
  s!"{e.id} = {Decimal.text e.value} is out of range " ++
    s!"[{Decimal.text e.range.min}, {Decimal.text e.range.max}]"

/-- Reports a value that is not a number, or lies outside the range. -/
def Range.check (range : Range) (id : String) (value : Float32) : Except RangeError Unit :=
  if value.isNaN || value < range.min || value > range.max then .error { id, value, range }
  else .ok ()

/-- The settings of a compressor. -/
structure Settings where
  /-- The level, linear, above which the signal is reduced. -/
  threshold : Float32 := 0.125
  ratio : Ratio Float32 := .finite 2
  /-- The attack time in milliseconds. -/
  attack : Float32 := 20
  /-- The release time in milliseconds. -/
  release : Float32 := 250
  /-- The gain, linear, that makes up for the reduction. -/
  makeup : Float32 := 2
  /-- The width of the knee, as the ratio of the levels at its two ends. -/
  knee : Float32 := 2.82843
  /-- The share of the compressed signal in the output. -/
  mix : Float32 := 1
  /-- How the channels of the detector combine. -/
  link : LinkMode := .average
  /-- Which level of the detector is followed. -/
  detection : Detection := .rms
deriving BEq

instance : Inhabited Settings := ⟨{}⟩

namespace Settings

/-- Reports the first setting outside its range, in the order of the fields. The limit is no finite
ratio and needs no range. -/
def validate (s : Settings) : Except RangeError PUnit := do
  Range.threshold.check "threshold" s.threshold
  if let .finite r := s.ratio then
    Range.ratio.check "ratio" r
  Range.attack.check "attack" s.attack
  Range.release.check "release" s.release
  Range.makeup.check "makeup" s.makeup
  Range.knee.check "knee" s.knee
  Range.mix.check "mix" s.mix

end Settings

end DynamicRange
