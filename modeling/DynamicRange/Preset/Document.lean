import DynamicRange.Preset.Basic
import DynamicRange.Toml.Document

/-!
# Preset documents

A preset as a TOML document: `name`, `description` and `mode` at the top, the entries in the table
`params`. The name is required; other keys are ignored.

## Main definitions

* `Preset.read?`, `Preset.write`
* `Preset.write?`: the document, unless a text has too long a run of quotes
-/

namespace DynamicRange

/-- The content of a string value. -/
def Toml.Value.text? : Toml.Value → Option String
  | .text content => some content
  | _ => none

/-- The mode of a value: its name, or a table with the name as its only key and nothing in it. -/
def Mode.ofValue? : Toml.Value → Option Mode
  | .text name => ofName? name
  | .table _ [(name, .table _ [])] => ofName? name
  | .table _ [(name, .array [])] => ofName? name
  | _ => none

namespace Preset

/-- The key that stands for the content of a date or time, were it a table. -/
def momentKey : String := "$__toml_private_datetime"

/-- The entries of a value: a table of strings. A date or time counts as a table with one entry. -/
def entriesOf? : Toml.Value → Option Entries
  | .table _ entries => do
    let texts ← entries.mapM fun (key, value) => value.text?.map fun text => (key, text)
    return .ofList texts
  | .atom (.moment m) => some (.ofList [(momentKey, m.text)])
  | _ => none

/-- The preset in a table. -/
def ofTable? (t : Toml.Table) : Option Preset := do
  let name ← (← t.entries.lookup "name").text?
  let description ← match t.entries.lookup "description" with
    | none => some none
    | some value => value.text?.map some
  let mode ← match t.entries.lookup "mode" with
    | none => some default
    | some value => Mode.ofValue? value
  let params ← match t.entries.lookup "params" with
    | none => some .empty
    | some value => entriesOf? value
  return { name, description, mode, params }

/-- The preset in a text. -/
def read? (text : String) : Option Preset := do ofTable? (← Toml.Document.read? text)

/-- The characters of a preset's document. -/
def writeChars (p : Preset) : List Char :=
  Toml.writeEntry "name" p.name ++
    (p.description.map (Toml.writeEntry "description")).getD [] ++
    Toml.writeEntry "mode" p.mode.name ++
    "\n[params]\n".toList ++
    p.params.toList.flatMap fun entry => Toml.writeEntry entry.1 entry.2

/-- The document of a preset. -/
def write (p : Preset) : String := String.ofList p.writeChars

/-- Whether all texts of a preset can be written. Keys always can. -/
def isWritable (p : Preset) : Bool :=
  (p.name :: p.description.toList ++ p.params.toList.map Prod.snd).all fun text =>
    Toml.isWritable text.toList

/-- The document of a preset, if all its texts can be written. -/
def write? (p : Preset) : Option String := if p.isWritable then some p.write else none

end Preset

end DynamicRange
