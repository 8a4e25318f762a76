import DynamicRange.Files.Tree
import DynamicRange.Preset.Document
import DynamicRange.Preset.Factory

/-!
# Preset files

Presets that are kept as files, and the look-up of a preset by a name that may be that of a factory
preset or of a file.

## Main definitions

* `PresetError`
* `Preset.load`, `Preset.loadSettings`, `Preset.find`, `Preset.save`
-/

namespace DynamicRange

/-- What was tried on a file. -/
inductive FileAction where
  | read
  | write
  | createFolder
deriving DecidableEq, Repr

/-- What was tried, in words. -/
def FileAction.text : FileAction → String
  | read => "read"
  | write => "write"
  | createFolder => "create directory"

/-- Why there is no preset. -/
inductive PresetError where
  /-- An operation on a file failed. -/
  | file (action : FileAction) (path : String) (cause : FileError)
  /-- A document is no preset. -/
  | malformed
  /-- The entries of a preset have faults. -/
  | faulty (faults : List Fault)
  /-- Neither a factory preset nor a file goes by the name. -/
  | unknown (name : String)
  /-- A text of the preset has too long a run of quotes to be written. This ends the program. -/
  | unwritable

/-- The reason in words. -/
def PresetError.message : PresetError → String
  | file action path cause => s!"cannot {action.text} '{path}': {cause.message}"
  | malformed => "invalid preset TOML: not a preset document"
  | faulty faults => s!"invalid preset values: {Fault.summary faults}"
  | unknown name => s!"no factory preset or file named '{name}'"
  | unwritable => "arithmetic overflow"

namespace Preset

/-- The preset in a file. -/
def load (t : FileTree) (path : String) : Except PresetError Preset := do
  let text ← (t.readText path).mapError (.file .read path)
  match read? text with
  | some p => return p
  | none => throw .malformed

/-- The settings of the preset in a file. -/
def loadSettings (t : FileTree) (path : String) : Except PresetError Settings := do
  (← load t path).settings.mapError .faulty

/-- The factory preset of a name, or else the preset in the file of that name. -/
def find (t : FileTree) (name : String) : Except PresetError Preset :=
  match factory? name with
  | some p => .ok p
  | none => if t.isFile name then load t name else .error (.unknown name)

/-- Creates the folder of a path if it lacks. -/
def prepareFolder (t : FileTree) (path : String) : FileTree × Except PresetError PUnit :=
  match (Path.parent? path.toList).map String.ofList with
  | none | some "" => (t, .ok ())
  | some parent =>
    if t.isPresent parent then (t, .ok ())
    else
      let (t, result) := t.makeFolders parent
      (t, result.mapError (.file .createFolder parent))

/-- Writes a preset to a file, whose folder is created if it lacks. The folder is created before
the preset is found to be unwritable. -/
def save (t : FileTree) (path : String) (p : Preset) : FileTree × Except PresetError PUnit :=
  match prepareFolder t path, p.write? with
  | (t, .error e), _ => (t, .error e)
  | (t, .ok _), none => (t, .error .unwritable)
  | (t, .ok _), some document =>
    match t.write path document.toUTF8.toList with
    | .ok t => (t, .ok ())
    | .error e => (t, .error (.file .write path e))

end Preset

end DynamicRange
