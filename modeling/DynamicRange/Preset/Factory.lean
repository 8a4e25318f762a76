import DynamicRange.Preset.Basic

/-!
# Factory presets

The presets that are always at hand, each under an identifier and a display name.

## Main definitions

* `Preset.factory`: identifiers and presets
* `Preset.factory?`: the preset that goes by a name
-/

namespace DynamicRange.Preset

/-- The factory presets by identifier, in display order. -/
def factory : List (String × Preset) :=
  [("default",
    { name := "Default"
      description := "Stock settings: 2:1 above -18 dBFS, RMS detection, soft knee"
      params := .ofList
        [("threshold", "0.125"), ("ratio", "2"), ("attack", "20"), ("release", "250"),
         ("makeup", "2"), ("knee", "2.82843"), ("link", "average"), ("detection", "rms"),
         ("mix", "1")] }),
   ("vocal",
    { name := "Vocal"
      description := "Smooth leveling for lead vocals and dialogue"
      params := .ofList
        [("threshold", "-20dB"), ("ratio", "3"), ("attack", "10ms"), ("release", "150ms"),
         ("makeup", "+6dB"), ("knee", "4"), ("link", "maximum"), ("detection", "rms")] }),
   ("drum-bus",
    { name := "Drum Bus"
      description := "Punchy parallel compression that keeps transients"
      params := .ofList
        [("threshold", "-24dB"), ("ratio", "4"), ("attack", "30ms"), ("release", "80ms"),
         ("makeup", "+9dB"), ("knee", "2"), ("link", "maximum"), ("detection", "peak"),
         ("mix", "50%")] }),
   ("ducking",
    { name := "Ducking"
      description := "Pull the main signal down while the sidechain is active"
      mode := .sidechain
      params := .ofList
        [("threshold", "0.05"), ("ratio", "8"), ("attack", "5ms"), ("release", "400ms"),
         ("makeup", "1"), ("knee", "2"), ("link", "maximum"), ("detection", "peak")] }),
   ("brickwall",
    { name := "Brickwall"
      description := "Infinite ratio with fast attack: holds peaks at -1 dBFS"
      params := .ofList
        [("threshold", "-1dB"), ("ratio", "limit"), ("attack", "0.01"), ("release", "50ms"),
         ("makeup", "1"), ("knee", "1"), ("link", "maximum"), ("detection", "peak")] })]

/-- The factory preset with an identifier, or else with a display name, in any case. -/
def factory? (name : String) : Option Preset :=
  match factory.find? fun entry => Text.sameFolded name entry.1 with
  | some entry => some entry.2
  | none => (factory.map Prod.snd).find? fun p => Text.sameFolded name p.name

end DynamicRange.Preset
