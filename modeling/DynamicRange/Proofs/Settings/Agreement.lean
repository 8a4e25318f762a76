import DynamicRange.Proofs.Command.Override
import DynamicRange.Proofs.Preset.Resolved
import DynamicRange.Proofs.SelfKeyed

/-!
# The two checks of settings

Settings are checked field by field before an engine is set up, and control by control, through
their flat values, when a preset is resolved. The first check stops at a setting out of range and
the second goes on, but both look at the controls in the same order and report the same of each. So
the error of the first check is the first fault of the second, and settings that a preset or a
command line resolves to are refused by no engine.

## Key results

- `Settings.validate_eq`, `Settings.faults_eq`: each check by the controls out of range
- `Settings.Valid.accepted`: what can be set up with valid settings
- `Settings.validate_agrees_faults`: the checks against each other
-/

namespace DynamicRange

namespace Settings

/-- Whether the setting of a control lies in its range. A mode always does, and so does the limit,
which is no finite ratio. -/
def inRange (s : Settings) : Control → Bool
  | .threshold => Range.threshold.contains s.threshold
  | .ratio =>
    match s.ratio with
    | .finite r => Range.ratio.contains r
    | .limit => true
  | .attack => Range.attack.contains s.attack
  | .release => Range.release.contains s.release
  | .makeup => Range.makeup.contains s.makeup
  | .knee => Range.knee.contains s.knee
  | .link | .detection => true
  | .mix => Range.mix.contains s.mix

/-- What is reported of a control out of range. -/
def report (s : Settings) (c : Control) : RangeError :=
  { id := c.id, value := s.get c, range := c.range }

/-- The check of one control. -/
def check (s : Settings) (c : Control) : Except RangeError PUnit :=
  if s.inRange c then .ok () else .error (s.report c)

/-- The checks of all controls in a row. Modes pass theirs. -/
theorem validate_eq_forM (s : Settings) : s.validate = Control.all.forM s.check := by
  have hmix : Range.mix.check "mix" s.mix = s.check .mix >>= fun _ => pure () :=
    (Range.check_eq ..).trans (bind_pure (s.check .mix)).symm
  unfold validate
  -- only the ratio is checked or not; the other fields are checked as their controls are
  cases hr : s.ratio with
  | finite r =>
    have hratio : Range.ratio.check "ratio" r = s.check .ratio := by
      rw [Range.check_eq]
      simp only [check, inRange, report, get, hr]
      rfl
    rw [hmix]
    simp only [hratio]
    simp only [Range.check_eq]
    rfl
  | limit =>
    have hratio : s.check .ratio = .ok () := by
      simp only [check, inRange, hr, if_true]
    rw [hmix]
    simp only [Range.check_eq]
    show _ = s.check .threshold >>= fun _ => s.check .ratio >>= fun _ => _
    rw [hratio]
    rfl

/-- A row of checks ends at the first one that is not passed. -/
private theorem forM_check_eq (s : Settings) (controls : List Control) :
    controls.forM s.check =
      match controls.find? fun c => !s.inRange c with
      | some c => .error (s.report c)
      | none => .ok () := by
  induction controls with
  | nil => rfl
  | cons c cs ih =>
    -- the first check passes and the rest decides, or it reports the control
    rw [List.forM, List.find?_cons, check]
    cases s.inRange c with
    | true => exact ih
    | false => rfl

/-- The check reports the first control out of range. -/
theorem validate_eq (s : Settings) :
    s.validate =
      match Control.all.find? fun c => !s.inRange c with
      | some c => .error (s.report c)
      | none => .ok () := by
  rw [validate_eq_forM, forM_check_eq]

/-- The flat value of a control is in the range of its description when the setting is in its own,
unless the setting is the limit. -/
theorem contains_get (s : Settings) {c : Control} (hc : ¬(c = .ratio ∧ s.ratio.isLimit = true)) :
    -- the range of the description is that of the field; a mode has an index in its range
    c.descriptor.contains (s.get c) = s.inRange c := by
  cases c with
  | ratio =>
    cases hr : s.ratio with
    | finite r =>
      rw [get, inRange, hr]
      rfl
    | limit => exact absurd ⟨rfl, by rw [hr]; rfl⟩ hc
  | link => exact contains_link s.link
  | detection => exact contains_detection s.detection
  | _ => rfl

/-- The faults are the reports on all controls out of range, in the order of the controls. -/
theorem faults_eq (s : Settings) :
    s.faults = (Control.all.filter fun c => !s.inRange c).map fun c => .outOfRange (s.report c) := by
  rw [faults, ← List.filterMap_eq_map, List.filterMap_filter]
  refine congrArg (List.filterMap · Control.all) (funext fun c => ?_)
  -- the limit is passed over, and any other control is checked by its flat value
  by_cases hc : c = .ratio ∧ s.ratio.isLimit = true
  · obtain ⟨rfl, hlimit⟩ := hc
    have hin : s.inRange .ratio = true := by
      cases hr : s.ratio with
      | finite r =>
        rw [hr] at hlimit
        exact absurd hlimit Bool.false_ne_true
      | limit => simp only [inRange, hr]
    simp [hlimit, hin]
  · rw [if_neg hc, Control.faultOf?_eq, contains_get s hc]
    cases s.inRange c <;> rfl

/-- The faults by the first one, which is what the check reports. -/
theorem validate_eq_error_iff (s : Settings) (e : RangeError) :
    s.validate = .error e ↔ s.faults.head? = some (.outOfRange e) := by
  rw [validate_eq, faults_eq, List.head?_map, List.head?_filter]
  -- both are none, or both have the report of the same control
  cases Control.all.find? fun c => !s.inRange c with
  | none => exact ⟨nofun, nofun⟩
  | some c =>
    constructor
    · intro h
      obtain rfl := Except.error.inj h
      rfl
    · intro h
      exact congrArg Except.error (Fault.outOfRange.inj (Option.some.inj h))

/-! ### What can be set up -/

/-- No setting is refused: whatever cannot be set up fails for the formats of its lines. -/
structure Accepted (s : Settings) : Prop where
  engine (rate : Float32) : ∃ e, Engine.ofSettings s rate = .ok e
  compressor (rate : Nat) :
    (∃ c, Compressor.ofSettings s rate = .ok c) ∨
      rate = 0 ∧ Compressor.ofSettings s rate = .error (.lines (.zeroRate .main))
  sidechain (formats : PerLine Format) :
    (∃ c, SidechainCompressor.ofSettings s formats = .ok c) ∨
      ∃ e, Pairing.ofFormats formats = .error e ∧
        SidechainCompressor.ofSettings s formats = .error (.lines e)

/-- Valid settings are accepted everywhere. -/
theorem Valid.accepted {s : Settings} (hs : s.Valid) : s.Accepted := by
  have hengine (rate : Float32) : ∃ e, Engine.ofSettings s rate = .ok e :=
    Engine.ofSettings_eq_ok ((validate_eq_ok_iff s).mpr hs) rate
  refine ⟨hengine, fun rate => ?_, fun formats => ?_⟩
  -- a compressor is refused for a rate of zero only
  · by_cases hrate : rate = 0
    · subst hrate
      exact .inr ⟨rfl, rfl⟩
    · obtain ⟨e, he⟩ := hengine (.ofNat rate)
      exact .inl ⟨_, Compressor.ofSettings_eq_ok hrate he⟩
  -- a compressor with a sidechain is refused for its lines only
  · unfold SidechainCompressor.ofSettings
    cases Pairing.ofFormats formats with
    | error e => exact .inr ⟨e, rfl, rfl⟩
    | ok pairing =>
      obtain ⟨e, he⟩ := hengine (.ofNat formats.main.rate)
      rw [he]
      exact .inl ⟨_, rfl⟩

/-- The settings that a preset resolves to, alone or under overrides, are valid. -/
theorem valid_of_resolved {s : Settings}
    (h : (∃ p : Preset, p.settings = .ok s) ∨
      ∃ t source, Command.buildSettings t source = .ok s) : s.Valid := by
  rcases h with ⟨p, hp⟩ | ⟨t, source, hbuild⟩
  · exact Preset.valid_of_settings hp
  · obtain ⟨p, -, hp⟩ := Command.buildSettings_eq_ok_iff.mp hbuild
    exact Preset.valid_of_settings hp

/-- The check of the fields and the faults of the flat values, whatever the settings are. One finds
nothing where the other finds nothing; the error of the check is the first fault; the faults report
every control out of range, once and in the order of the controls. So nothing that a preset or a
command line resolves to is refused when engines and compressors are set up. -/
theorem validate_agrees_faults (s : Settings) :
    (s.validate = .ok () ↔ s.faults = []) ∧
      (∀ e, s.validate = .error e ↔ s.faults.head? = some (.outOfRange e)) ∧
      (s.faults =
        (Control.all.filter fun c => !s.inRange c).map fun c => .outOfRange (s.report c)) ∧
      ((∃ p : Preset, p.settings = .ok s) ∨ (∃ t source, Command.buildSettings t source = .ok s) →
        s.Accepted) :=
  ⟨(validate_eq_ok_iff s).trans (faults_eq_nil_iff s).symm, validate_eq_error_iff s, faults_eq s,
    fun h => (valid_of_resolved h).accepted⟩

/-- A preset with the make-up gain under its name for display, and the limit ratio. -/
private def limitPreset : Preset where
  params := .ofList [("Makeup Gain", "4"), ("ratio", "inf")]

/-- A run without a preset, and with the same values as overrides. -/
private def limitSource : Command.Source := ⟨none, [("Makeup Gain", "4"), ("ratio", "inf")]⟩

/-- Settings with the limit ratio and a make-up gain of four, from a preset that gives the gain
under another name than the stable one, and from overrides without a preset. -/
theorem accepted_of_limit_preset :
    (∃ s, limitPreset.settings = .ok s ∧ s.ratio = .limit ∧ s.makeup = 4 ∧ s.Accepted) ∧
      ∀ t, ∃ s, Command.buildSettings t limitSource = .ok s ∧ s.ratio = .limit ∧ s.makeup = 4 ∧
        s.Accepted := by
  have hpreset : limitPreset.settings.toOption.map (fun s => (s.ratio, s.makeup)) =
      some (.limit, 4) := by
    decide +kernel
  -- what the preset resolves to, with the two values
  obtain ⟨s, hs, hvalues⟩ := Option.map_eq_some_iff.mp hpreset
  have hsettings := Result.toOption_eq_some_iff.mp hs
  obtain ⟨hratio, hmakeup⟩ := Prod.mk.inj hvalues
  -- the same values from overrides alone
  have hoverrides : (Command.override default limitSource.overrides).settings.toOption.map
      (fun s => (s.ratio, s.makeup)) = some (.limit, 4) := by
    decide +kernel
  obtain ⟨s', hs', hvalues'⟩ := Option.map_eq_some_iff.mp hoverrides
  obtain ⟨hratio', hmakeup'⟩ := Prod.mk.inj hvalues'
  refine ⟨⟨s, hsettings, hratio, hmakeup,
    (validate_agrees_faults s).2.2.2 (.inl ⟨_, hsettings⟩)⟩, fun t => ?_⟩
  have hbuild : Command.buildSettings t limitSource = .ok s' :=
    Command.buildSettings_eq_ok_iff.mpr ⟨_, rfl, Result.toOption_eq_some_iff.mp hs'⟩
  exact ⟨s', hbuild, hratio', hmakeup', (validate_agrees_faults s').2.2.2 (.inr ⟨t, _, hbuild⟩)⟩

end Settings

end DynamicRange
