import DynamicRange.Settings.Control

/-!
# Faults of settings

What can be wrong with named values: an unknown name, a text that is no value of the setting, and
a value out of range.

## Main definitions

* `Fault`, `Fault.message`
* `Fault.summary`: several faults in one text
* `Control.range`, `Control.faultOf?`, `Control.checkNamed`: the range check of one value
* `Settings.faults`: the range check of all settings
-/

namespace DynamicRange

/-- A fault of one named value. -/
inductive Fault where
  | unknownName (name : String)
  | outOfRange (e : RangeError)
  | notANumber (c : Control) (text : String)
  /-- A text is none of the labels of a choice. -/
  | notOneOf (c : Control) (text : String)

namespace Fault

/-- A fault in words. -/
def message : Fault → String
  | unknownName name => s!"unknown parameter '{name}'"
  | outOfRange e =>
    s!"parameter '{e.id}' value {Decimal.text e.value} out of range " ++
      s!"[{Decimal.text e.range.min}, {Decimal.text e.range.max}]"
  | notANumber c text => s!"invalid format for parameter '{c.id}': '{text}' is not a number"
  | notOneOf c text =>
    let labels := ", ".intercalate c.descriptor.labels
    s!"invalid format for parameter '{c.id}': '{text}' is not one of {labels}"

/-- One fault by itself, several in a list. -/
def summary : List Fault → String
  | [fault] => fault.message
  | faults => "multiple validation errors: " ++ "; ".intercalate (faults.map message)

end Fault

/-- The range of the flat values of a control. -/
def Control.range (c : Control) : Range where
  min := c.descriptor.min
  max := c.descriptor.max
  ordered := by cases c <;> decide

/-- The fault of a flat value of a control, if it has one. The limit ratio counts as infinity, which
is out of range. -/
def Control.faultOf? (c : Control) (x : Float32) : Option Fault :=
  let d := c.descriptor
  if x.isNaN || !d.contains x then
    some (.outOfRange { id := d.id, value := x, range := c.range })
  else none

/-- The control that goes by a name. -/
def Control.resolve (name : String) : Except Fault Control :=
  match Control.named? name with
  | some c => .ok c
  | none => .error (.unknownName name)

/-- Checks the flat value of a named control. -/
def Control.checkNamed (name : String) (x : Float32) : Except Fault PUnit := do
  let c ← Control.resolve name
  if let some fault := c.faultOf? x then throw fault

/-- All values out of range, in the order of the controls. The limit ratio is not one of them. -/
def Settings.faults (s : Settings) : List Fault :=
  Control.all.filterMap fun c =>
    if c = .ratio ∧ s.ratio.isLimit then none else c.faultOf? (s.get c)

end DynamicRange
