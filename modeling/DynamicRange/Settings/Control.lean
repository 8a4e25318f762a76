import DynamicRange.Parameter.Parametric
import DynamicRange.Settings.Basic
import DynamicRange.Text.Blank

/-!
# Controls

The nine settings as controls: each with a description, an index, and a flat number that stands
for its value.

## Main definitions

* `Control`, `Control.all`, `Control.descriptor`
* `Control.named?`: the control that goes by a name
* `Settings.get`, `Settings.set`: the flat value of a control
-/

namespace DynamicRange

open Parameter (Descriptor)

/-- A control of the compressor. -/
inductive Control where
  | threshold
  | ratio
  | attack
  | release
  | makeup
  | knee
  | link
  | detection
  | mix
deriving DecidableEq, Repr

namespace Control

/-- All controls in the order of their indices. -/
def all : List Control :=
  [threshold, ratio, attack, release, makeup, knee, link, detection, mix]

/-- The control with an index. -/
def ofIndex? (i : Nat) : Option Control := all[i]?

/-- The index of a control. -/
def index (c : Control) : Nat := all.idxOf c

/-- The stable name of a control, which is also its key in a preset. -/
def id : Control → String
  | threshold => "threshold"
  | ratio => "ratio"
  | attack => "attack"
  | release => "release"
  | makeup => "makeup"
  | knee => "knee"
  | link => "link"
  | detection => "detection"
  | mix => "mix"

/-- A description with the range and default of a setting. -/
private def ranged (make : Float32 → Float32 → Float32 → Descriptor) (range : Range)
    (default : Float32) : Descriptor :=
  make range.min range.max default

/-- The description of a control, but for its identity. -/
def description : Control → Descriptor
  | threshold =>
    { ranged (.multiplier "Threshold" "Thresh") .threshold 0.125 with unit := .none, step := 0.001 }
  | ratio => { ranged (.multiplier "Ratio" "Ratio") .ratio 2 with unit := .ratio, step := 0.1 }
  | attack => ranged (.time "Attack" "Attack") .attack 20
  | release => ranged (.time "Release" "Release") .release 250
  | makeup => ranged (.multiplier "Makeup Gain" "Makeup") .makeup 2
  | knee => ranged (.multiplier "Knee" "Knee") .knee 2.82843
  | link => .choice "Link" "Link" LinkMode.labels 0
  | detection => .choice "Detection" "Detect" Detection.labels 1
  | mix => { ranged (.multiplier "Mix" "Mix") .mix 1 with unit := .none }

/-- The description of a control. The stable numbers start at 100. -/
def descriptor (c : Control) : Descriptor := c.description.withId (100 + c.index) c.id

/-- The description of the control with an index. -/
def descriptor? (i : Nat) : Option Descriptor := (ofIndex? i).map descriptor

/-- The control that goes by a name; blanks around the name do not matter. -/
def named? (name : String) : Option Control :=
  all.find? fun c => c.descriptor.answersTo (Text.trimmed name)

end Control

namespace Settings

/-- The flat value of a control. Modes are given by their index. -/
def get (s : Settings) : Control → Float32
  | .threshold => s.threshold
  | .ratio => s.ratio.value
  | .attack => s.attack
  | .release => s.release
  | .makeup => s.makeup
  | .knee => s.knee
  | .link => .ofNat s.link.index
  | .detection => .ofNat s.detection.index
  | .mix => s.mix

/-- Sets a control to a flat value, which is first limited to the range. NaN changes nothing. -/
def set (s : Settings) (c : Control) (x : Float32) : Settings :=
  if x.isNaN then s
  else
    let limited := c.descriptor.clamp x
    match c with
    | .threshold => { s with threshold := limited }
    | .ratio => { s with ratio := .ofValue x }
    | .attack => { s with attack := limited }
    | .release => { s with release := limited }
    | .makeup => { s with makeup := limited }
    | .knee => { s with knee := limited }
    | .link => { s with link := .ofIndex (Scalar.nearestIndex limited) }
    | .detection => { s with detection := .ofIndex (Scalar.nearestIndex limited) }
    | .mix => { s with mix := limited }

instance : Parametric Settings where
  parameterCount _ := Control.all.length
  descriptor? _ := Control.descriptor?
  parameter s i := ((Control.ofIndex? i).map s.get).getD 0
  setParameter s i x := ((Control.ofIndex? i).map (s.set · x)).getD s

end Settings

end DynamicRange
