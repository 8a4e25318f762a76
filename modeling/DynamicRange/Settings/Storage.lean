import DynamicRange.Settings.Text

/-!
# Settings by name and number

Whoever sets a control from outside names it, and the name is resolved to a number. What the text
may look like then follows from the stable name of the control, and where its value is stored from
the number and the kind of the value.

## Main definitions

* `Control.search?`: the number that a name is resolved to
* `ControlValue.read`: the value of a text, by stable name
* `Settings.InPlace.store`, `Settings.InPlace.apply`: settings changed in place
-/

namespace DynamicRange

/-- The number of the first description that goes by a name; blanks around the name do not matter.
Stable names are looked at before the names for display. -/
def Control.search? (name : String) : Option Nat :=
  let name := Text.trimmed name
  (List.range all.length).find? fun i => (descriptor? i).any fun d =>
    Text.sameName d.id name || Text.sameName d.name name || Text.sameName d.shortName name

/-- The control that a name is resolved to, by its number. -/
def Control.byNumber (name : String) : Except Fault Control :=
  match (search? name).bind ofIndex? with
  | some c => .ok c
  | none => .error (.unknownName name)

/-- The value of a text for a named control. The stable name says how the text is read. -/
def ControlValue.read (name text : String) : Except Fault ControlValue := do
  let c ← Control.byNumber name
  let cs := Text.trim text.toList
  match c.descriptor.id with
  | "threshold" | "makeup" | "knee" => (parseLevel c cs).map number
  | "attack" | "release" => (parseTime c cs).map number
  | "mix" => (parseShare c cs).map number
  | "ratio" => (parseRatio c cs).map ratio
  | "link" => (parseChoice LinkMode.ofName? LinkMode.ofIndex LinkMode.labels.length c cs).map link
  | "detection" =>
    (parseChoice Detection.ofName? Detection.ofIndex Detection.labels.length c cs).map detection
  | _ => .error (.unknownName name)

namespace Settings.InPlace

/-- Stores a value. A number goes to the control with the given number; a value of another kind
has one control that it can belong to, and goes there. -/
def store (name : String) (number : Nat) (value : ControlValue) : EStateM Fault Settings Unit :=
  match number, value with
  | 0, .number x => modify fun s => { s with threshold := x }
  | 2, .number x => modify fun s => { s with attack := x }
  | 3, .number x => modify fun s => { s with release := x }
  | 4, .number x => modify fun s => { s with makeup := x }
  | 5, .number x => modify fun s => { s with knee := x }
  | 8, .number x => modify fun s => { s with mix := x }
  | _, .ratio r => modify fun s => { s with ratio := r }
  | _, .link mode => modify fun s => { s with link := mode }
  | _, .detection law => modify fun s => { s with detection := law }
  | _, _ => throw (.unknownName name)

/-- Reads a text for a named control and stores its value. -/
def apply (name text : String) : EStateM Fault Settings Unit := do
  let value ← ofExcept (ControlValue.read name text)
  match Control.search? name with
  | some number => store name number value
  | none => throw (.unknownName name)

end Settings.InPlace

end DynamicRange
