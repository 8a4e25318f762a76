import DynamicRange.Command.Console
import DynamicRange.Command.Invocation

/-!
# Settings of a run

The settings of a run are those of a preset, overridden by the command line.
-/

namespace DynamicRange.Command

/-- The preset of a name. -/
def loadPreset (t : FileTree) (name : String) : Except Failure Preset :=
  (Preset.find t name).mapError fun e =>
    .because s!"Cannot load preset '{name}' (see 'squish presets')" (.ofPreset e)

/-- The stable name of the control that goes by a key, or the key itself. -/
def canonicalKey (key : String) : String := ((Control.named? key).map Control.id).getD key

/-- A preset with entries on top, each under the stable name of its control, so that it takes the
place of an entry of that name. -/
def override (p : Preset) (overrides : List (String × String)) : Preset :=
  { p with
    params := overrides.foldl (fun params o => params.insert (canonicalKey o.1) o.2) p.params }

/-- The settings of a run. -/
def buildSettings (t : FileTree) (source : Source) : Except Failure Settings := do
  let preset ← match source.preset with
    | some name => loadPreset t name
    | none => .ok default
  (override preset source.overrides).settings.mapError fun faults =>
    ⟨"Invalid compressor parameters", [Fault.summary faults]⟩

end DynamicRange.Command
