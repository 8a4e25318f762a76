import DynamicRange.Proofs.Result
import DynamicRange.Settings.Text

/-!
# Values of controls

Settings are the values of their nine controls. Assigning a value to a control changes that control
and no other, and a text that parses for a control always gives a value that can be assigned to it.

## Key results

- `Settings.eq_of_value`: settings are their values
- `Settings.assign?_eq_some`: what an assignment changes
- `Settings.apply_cases`: what applying a named text can do
-/

namespace DynamicRange

/-- A control goes by its stable name. -/
theorem Control.named?_id (c : Control) : named? c.id = some c := by
  cases c <;> decide

namespace ControlValue

/-- The flat number that stands for a value. -/
def flat : ControlValue → Float32
  | .number x => x
  | .ratio r => r.value
  | .link mode => .ofNat mode.index
  | .detection law => .ofNat law.index

/-- A text that parses for a control gives a value of its kind. -/
theorem isSome_assign?_of_parse {c : Control} {text : String} {x : ControlValue}
    (h : parse c text = .ok x) (s : Settings) : ∃ s', s.assign? c x = some s' := by
  -- every control parses its texts to values of its own kind
  cases c <;> simp only [parse] at h <;> obtain ⟨y, -, rfl⟩ := Result.map_eq_ok_iff.mp h <;>
    exact ⟨_, rfl⟩

/-- A text under the name of a control is parsed for that control. -/
theorem parseNamed_of_named {name : String} {c : Control} (h : Control.named? name = some c)
    (text : String) : parseNamed name text = parse c text := by
  unfold parseNamed Control.resolve
  rw [h]
  rfl

end ControlValue

namespace Settings

/-- The value of a control. -/
def value (s : Settings) : Control → ControlValue
  | .threshold => .number s.threshold
  | .ratio => .ratio s.ratio
  | .attack => .number s.attack
  | .release => .number s.release
  | .makeup => .number s.makeup
  | .knee => .number s.knee
  | .link => .link s.link
  | .detection => .detection s.detection
  | .mix => .number s.mix

/-- The flat number of a value is what is read of the control. -/
theorem flat_value (s : Settings) (c : Control) : (s.value c).flat = s.get c := by
  cases c <;> rfl

/-- Settings are the values of their controls. -/
theorem eq_of_value {s s' : Settings} (h : ∀ c, s.value c = s'.value c) : s = s' := by
  -- nine fields, each of which is the value of one control
  obtain ⟨threshold, ratio, attack, release, makeup, knee, mix, link, detection⟩ := s
  obtain ⟨threshold', ratio', attack', release', makeup', knee', mix', link', detection'⟩ := s'
  obtain rfl := ControlValue.number.inj (h .threshold)
  obtain rfl := ControlValue.ratio.inj (h .ratio)
  obtain rfl := ControlValue.number.inj (h .attack)
  obtain rfl := ControlValue.number.inj (h .release)
  obtain rfl := ControlValue.number.inj (h .makeup)
  obtain rfl := ControlValue.number.inj (h .knee)
  obtain rfl := ControlValue.number.inj (h .mix)
  obtain rfl := ControlValue.link.inj (h .link)
  obtain rfl := ControlValue.detection.inj (h .detection)
  rfl

/-- An assignment sets its control and leaves the others. -/
theorem assign?_eq_some {s s' : Settings} {c : Control} {x : ControlValue}
    (h : s.assign? c x = some s') :
    s'.value c = x ∧ ∀ c', c' ≠ c → s'.value c' = s.value c' := by
  -- a value of another kind than the control's is not assigned
  cases c <;> cases x <;> cases h <;> refine ⟨rfl, fun c' hc' => ?_⟩ <;> cases c' <;>
    first | rfl | exact absurd rfl hc'

/-- Applying a text to the control of a name either assigns the value that the text parses to, or
reports the fault of the name or the text. -/
theorem apply_cases (s : Settings) (name text : String) :
    (∃ c x s', Control.named? name = some c ∧ ControlValue.parse c text = .ok x ∧
      s.assign? c x = some s' ∧ ControlValue.parseNamed name text = .ok x ∧
      s.apply name text = .ok s') ∨
    ∃ fault, ControlValue.parseNamed name text = .error fault ∧
      s.apply name text = .error fault := by
  cases hname : Control.named? name with
  -- a name that no control goes by is reported before the text is read
  | none =>
    have hresolve : Control.resolve name = .error (.unknownName name) := by
      unfold Control.resolve
      rw [hname]
    refine .inr ⟨.unknownName name, ?_, ?_⟩
    · rw [ControlValue.parseNamed, hresolve]
      rfl
    · unfold apply ControlValue.parseNamed
      rw [hresolve]
      rfl
  | some c =>
    -- the name is known, and the text decides
    have hparsed := ControlValue.parseNamed_of_named hname text
    cases hparse : ControlValue.parse c text with
    | error fault =>
      refine .inr ⟨fault, hparsed.trans hparse, ?_⟩
      unfold apply
      rw [hparsed, hparse]
      rfl
    | ok x =>
      obtain ⟨s', hs'⟩ := ControlValue.isSome_assign?_of_parse hparse s
      refine .inl ⟨c, x, s', rfl, hparse, hs', hparsed.trans hparse, ?_⟩
      unfold apply Control.resolve
      rw [hparsed, hparse, hname]
      simp only [bind, Except.bind, hs']

end Settings

end DynamicRange
