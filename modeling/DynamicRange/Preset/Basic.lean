import DynamicRange.Preset.Entries
import DynamicRange.Settings.Text

/-!
# Presets

A preset is a name for settings, which it gives as texts by key. Only when it is resolved are the
keys looked up and the texts read, so that it can hold what its author wrote.

## Main definitions

* `Preset`, `Preset.ofSettings`
* `Preset.settings`: the settings of a preset, or all its faults
* `Preset.resolved`: the preset with every control spelled out
-/

namespace DynamicRange

/-- What a preset is made for. -/
inductive Mode where
  /-- One stream. -/
  | compressor
  /-- A main stream and a sidechain. -/
  | sidechain
deriving DecidableEq, Repr, Inhabited

namespace Mode

/-- The name of a mode in a preset file. -/
def name : Mode → String
  | compressor => "compressor"
  | sidechain => "sidechain"

/-- The mode of a name, which is spelled exactly. -/
def ofName? (name : String) : Option Mode :=
  [compressor, sidechain].find? fun mode => mode.name == name

end Mode

/-- Settings under a name, as texts by key. -/
structure Preset where
  /-- The name for display. -/
  name : String := "Untitled"
  /-- What the preset is good for. -/
  description : Option String := none
  /-- What the preset is made for. -/
  mode : Mode := .compressor
  /-- The texts of the controls. Keys need not be stable names. -/
  params : Entries := .empty
deriving DecidableEq, Inhabited

namespace Preset

/-- The preset that spells out all settings. -/
def ofSettings (name : String) (s : Settings) : Preset where
  name := name
  params := .ofList (Control.all.map fun c => (c.id, s.format c))

/-- Applies one entry: the settings so far and the faults so far. -/
def applyEntry (state : Settings × List Fault) (entry : String × String) :
    Settings × List Fault :=
  match state.1.apply entry.1 entry.2 with
  | .ok s => (s, state.2)
  | .error fault => (state.1, state.2 ++ [fault])

/-- Applies all entries to the default settings, in the order of the keys. -/
def applied (p : Preset) : Settings × List Fault := p.params.toList.foldl applyEntry ({}, [])

/-- The settings of a preset. Entries without fault take effect also beside faulty ones, and the
ranges are checked at the end. -/
def settings (p : Preset) : Except (List Fault) Settings :=
  let (s, faults) := p.applied
  match faults ++ s.faults with
  | [] => .ok s
  | all => .error all

/-- The preset with the given settings spelled out in place of its own entries. -/
def resolved (p : Preset) (s : Settings) : Preset :=
  { ofSettings p.name s with description := p.description, mode := p.mode }

end Preset

end DynamicRange
