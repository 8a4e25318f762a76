import DynamicRange.Command.Build

/-!
# Commands on controls and presets

The commands `params` and `presets`.
-/

namespace DynamicRange.Command

open Console
open Parameter (Descriptor)

/-! ## Controls -/

/-- Texts that a control takes. -/
def acceptedForms : Control → String
  | .threshold => "0.125, -18dB"
  | .ratio => "4, 4:1, limit, inf"
  | .attack | .release => "20, 20ms, 0.5s"
  | .makeup => "2, +6dB"
  | .knee => "2.83, 9dB"
  | .mix => "0.5, 50%"
  | .link => "average, maximum"
  | .detection => "peak, rms"

/-- A value with its unit, or its label. -/
def valueText (d : Descriptor) (x : Float32) : String :=
  (d.label? x).getD (Decimal.text x ++ d.unit.suffix)

/-- The labels of a choice, or the range with its unit. Factors are shown without theirs. -/
def rangeText (d : Descriptor) : String :=
  if d.labels.isEmpty then
    let range := s!"{Decimal.text d.min} - {Decimal.text d.max}"
    if d.unit = .multiplier then range else range ++ d.unit.suffix
  else " | ".intercalate d.labels

/-- A row of the table of controls. -/
def controlRow (name range default accepted : String) : String :=
  s!"  {Text.padEnd 10 name}  {Text.padEnd 22 range}  {Text.padEnd 10 default}  {accepted}"

/-- The row of a control. -/
def controlLine (c : Control) : String :=
  let d := c.descriptor
  controlRow d.id (rangeText d) (valueText d d.default) (acceptedForms c)

/-- Describes a control. -/
def describe (c : Control) : Console PUnit := do
  let d := c.descriptor
  sayAll
    [s!"{d.name} ({d.id})",
     Text.rule (d.name.utf8ByteSize + d.id.utf8ByteSize + 3),
     "",
     s!"  Range:    {rangeText d}",
     s!"  Default:  {valueText d d.default}",
     s!"  Accepts:  {acceptedForms c}"]
  if c = .ratio then say "  'limit' switches to brickwall limiting at the threshold."

/-- Lists the controls, or describes the one with the given name or stable name. -/
def params (name : Option String) : Console PUnit := do
  match name with
  | some name =>
    let found := Control.all.find? fun c =>
      Text.sameName c.descriptor.id name || Text.sameName c.descriptor.name name
    match found with
    | some c => describe c
    | none => fail ⟨s!"Unknown parameter: {name}", []⟩
  | none =>
    sayAll <|
      ["Compressor Parameters", "=====================", "",
       controlRow "Name" "Range" "Default" "Accepts",
       controlRow "----" "-----" "-------" "-------"] ++
      Control.all.map controlLine ++
      ["", "Example:",
       "  squish compress in.wav out.wav --param threshold=-24dB --param ratio=4:1"]

/-! ## Presets -/

/-- The mode as the command that a preset is made for. -/
def modeText : Mode → String
  | .compressor => "compress"
  | .sidechain => "sidechain"

/-- The line of a preset in the list. -/
def presetLine (p : Preset) : String :=
  let description := p.description.getD ""
  s!"  {Text.padEnd 12 p.name} {Text.padEnd 10 (modeText p.mode)} - {description}"

/-- Lists the factory presets. -/
def listPresets : Console PUnit :=
  sayAll <|
    ["Factory Presets:", "================"] ++
    Preset.factory.map (fun entry => presetLine entry.2) ++
    ["", "Use one with: squish compress in.wav out.wav --preset <name>"]

/-- The line of a control in a preset. A control that is not spelled out under its stable name is
marked as default. -/
def settingLine (p : Preset) (s : Settings) (c : Control) : String :=
  let mark := if (p.params.get? c.id).isSome then "" else " (default)"
  s!"  {Text.padEnd 10 c.id} = {s.format c}{mark}"

/-- Writes a preset with all its settings spelled out. -/
def exportPreset (p : Preset) (s : Settings) (target : String) : Console PUnit := do
  attemptPreset (.because s!"Failed to export to {target}")
    (← change (Preset.save · target (p.resolved s)))
  sayAll ["", s!"Exported to {target}"]

/-- Shows a preset. -/
def showPreset (name : String) (target : Option String) : Console PUnit := do
  let p ← attempt id (loadPreset (← files) name)
  let s ← attempt
    (fun faults => ⟨s!"Preset '{p.name}' has invalid parameters", [Fault.summary faults]⟩)
    p.settings
  sayAll <|
    [p.name, Text.rule p.name.utf8ByteSize] ++ p.description.toList ++
    ["", s!"Mode: {modeText p.mode}", "", "Parameters:"] ++
    Control.all.map (settingLine p s)
  if let some target := target then exportPreset p s target

/-- Lists the factory presets, or shows one preset. -/
def presets (name target : Option String) : Console PUnit :=
  match name with
  | none => listPresets
  | some name => showPreset name target

end DynamicRange.Command
