import DynamicRange.Scalar.Conversion

/-!
# Parameter descriptors

What a host has to know of one parameter of a processor: its names, unit, range, default and
identity, whether it is stepped, and the labels of its steps.

## Main definitions

* `Unit`, `Flags`: unit of a value, and capabilities as a set
* `Descriptor`, with the constructors `Descriptor.time`, `Descriptor.multiplier`,
  `Descriptor.choice`
* `Descriptor.clamp`, `Descriptor.contains`, `Descriptor.label?`
-/

namespace DynamicRange.Parameter

/-- The unit a value is shown in. -/
inductive Unit where
  | milliseconds
  | ratio
  | multiplier
  | none
deriving DecidableEq, Repr

/-- What follows the number. -/
def Unit.suffix : Unit → String
  | milliseconds => " ms"
  | ratio => ":1"
  | multiplier => "x"
  | none => ""

/-- A set of capabilities. -/
structure Flags where
  /-- A host can automate the parameter. -/
  automatable : Bool := true
  /-- The values are the integers of a range. -/
  stepped : Bool := false
deriving DecidableEq, Repr

namespace Flags

/-- No capability. -/
def empty : Flags := { automatable := false }

/-- The set with automation alone. -/
def automation : Flags := {}

/-- The set with stepping alone. -/
def stepping : Flags := { automatable := false, stepped := true }

instance : Inhabited Flags := ⟨automation⟩

/-- The capabilities of either set. -/
def union (a b : Flags) : Flags := ⟨a.automatable || b.automatable, a.stepped || b.stepped⟩

/-- Whether every capability of `b` is one of `a`. -/
def contains (a b : Flags) : Bool :=
  (!b.automatable || a.automatable) && (!b.stepped || a.stepped)

end Flags

/-- The description of one parameter. -/
structure Descriptor where
  /-- The name for display. -/
  name : String
  /-- A name of at most eight characters. -/
  shortName : String
  unit : Unit
  /-- The least value. -/
  min : Float32
  /-- The greatest value. -/
  max : Float32
  /-- The value of a new processor. -/
  default : Float32
  /-- The recommended increment. -/
  step : Float32 := 0.01
  /-- The stable number of the parameter. -/
  number : Nat := 0
  /-- The stable name of the parameter, also its key in preset files. -/
  id : String := ""
  flags : Flags := {}
  /-- The labels of the values of a stepped parameter, in order. -/
  labels : List String := []

namespace Descriptor

/-- A time in milliseconds. -/
def time (name shortName : String) (min max default : Float32) : Descriptor :=
  { name, shortName, unit := .milliseconds, min, max, default }

/-- A linear factor. -/
def multiplier (name shortName : String) (min max default : Float32) : Descriptor :=
  { name, shortName, unit := .multiplier, min, max, default }

/-- A choice of one label by its index. -/
def choice (name shortName : String) (labels : List String) (default : Nat) : Descriptor :=
  { name, shortName, unit := .none, min := 0, max := .ofNat (labels.length - 1)
    default := .ofNat default, step := 1, flags := Flags.automation.union .stepping, labels }

/-- Sets the stable number and name. -/
def withId (d : Descriptor) (number : Nat) (id : String) : Descriptor := { d with number, id }

/-- The value limited to the range; NaN stays. -/
def clamp (d : Descriptor) (x : Float32) : Float32 := Scalar.limit d.min d.max x

/-- Whether the value lies in the range. -/
def contains (d : Descriptor) (x : Float32) : Bool := d.min ≤ x && x ≤ d.max

/-- The label of the step nearest to a value. Negative values have none; NaN counts as zero. -/
def label? (d : Descriptor) (x : Float32) : Option String :=
  if x < 0 then none else d.labels[Scalar.nearestIndex x]?

end Descriptor

end DynamicRange.Parameter
