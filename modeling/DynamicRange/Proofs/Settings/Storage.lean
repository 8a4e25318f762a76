import DynamicRange.Proofs.Settings.Value
import DynamicRange.Settings.Storage

/-!
# A named text stored in settings

Texts are read by the stable name of a control, and values are stored by its number and their kind.
The two agree: a text that is read for a control gives a value of the kind that belongs to the
number of that control. Only this keeps a ratio or a mode out of settings that it was not meant for,
because for these kinds the number is not looked at.

## Key results

- `Control.search?_eq`: the number of a name is that of the control that goes by it
- `ControlValue.read_eq`: reading by stable name is reading by control
- `Settings.InPlace.store_eq`, `Settings.InPlace.store_of_ne_number`: where a value is stored
- `Settings.InPlace.apply_eq`: applying in place is `Settings.apply`
- `Settings.InPlace.apply_stores`: when a named text is applied, and what changes
-/

namespace DynamicRange

namespace Control

/-- The numbers of the controls are their positions. -/
theorem range_eq : List.range all.length = all.map index := by decide

/-- The control at the number of a control is that control. -/
theorem ofIndex?_index (c : Control) : ofIndex? c.index = some c := by
  cases c <;> rfl

/-- The order in which the three names are compared makes no difference. -/
theorem sameName_or_eq (d : Parameter.Descriptor) (name : String) :
    (Text.sameName d.id name || Text.sameName d.name name || Text.sameName d.shortName name) =
      d.answersTo name := by
  rw [Parameter.Descriptor.answersTo, Bool.or_assoc, Bool.or_comm]

/-- The search gives the number of the control that goes by the name. -/
theorem search?_eq (name : String) : search? name = (named? name).map index := by
  have hanswers : (fun i => (descriptor? i).any (·.answersTo (Text.trimmed name))) ∘ index =
      fun c => c.descriptor.answersTo (Text.trimmed name) := by
    funext c
    simp [descriptor?, ofIndex?_index]
  rw [search?]
  simp only [sameName_or_eq]
  -- the search runs over the numbers, the name over the controls, in the same order
  rw [range_eq, List.find?_map, hanswers]
  rfl

/-- Going by the number that the search gives is going by the name. -/
theorem byNumber_eq : byNumber = resolve := by
  funext name
  unfold byNumber resolve
  rw [search?_eq]
  cases named? name with
  | none => rfl
  | some c => simp [ofIndex?_index]

end Control

/-- Reading a text control by control is parsing it under the name. -/
theorem ControlValue.read_eq (name text : String) : read name text = parseNamed name text := by
  rw [read, parseNamed, Control.byNumber_eq]
  -- the ids tell the controls apart, so that each takes its own parser
  refine congrArg _ (funext fun c => ?_)
  have hid : c.descriptor.id = c.id := rfl
  rw [hid]
  cases c <;> simp [Control.id, parse]

namespace Settings.InPlace

/-- A value of the kind of a control is stored in its place, under the number of the control. -/
theorem store_eq {s s' : Settings} {c : Control} {x : ControlValue} (h : s.assign? c x = some s')
    (name : String) : store name c.index x s = .ok () s' := by
  -- of all pairs of a control and a kind only those that belong together are assigned at all
  cases c <;> cases x <;> cases h <;> rfl

/-- The number of the control tells numbers apart, and nothing else: a ratio or a mode would be
stored under the number of any control. -/
theorem store_of_ne_number {x : ControlValue} (hx : ∀ y, x ≠ .number y) (name : String)
    (i j : Nat) (s : Settings) :
    store name i x s = store name j x s ∧ ∃ s', store name i x s = .ok () s' := by
  cases x with
  | number y => exact absurd rfl (hx y)
  | ratio r => simpa only [store, true_and] using ⟨_, rfl⟩
  | link mode => simpa only [store, true_and] using ⟨_, rfl⟩
  | detection law => simpa only [store, true_and] using ⟨_, rfl⟩

/-- A named text is applied as a whole or not at all. -/
theorem apply_eq (s : Settings) (name text : String) :
    apply name text s = match s.apply name text with
      | .ok s' => .ok () s'
      | .error fault => .error fault s := by
  unfold InPlace.apply
  rw [ControlValue.read_eq, Control.search?_eq]
  rcases s.apply_cases name text with
    ⟨c, x, s', hname, -, hassign, hparse, happly⟩ | ⟨fault, hparse, happly⟩
  · -- the text was read for the control that goes by the name, and that control has the number
    rw [hparse, hname, happly]
    exact store_eq hassign name
  · rw [hparse, happly]
    rfl

/-- A named text is applied to settings exactly when it can be read for the control of that name;
otherwise the settings stay as they are, and the fault is that of the reading. What is read can
always be stored: it becomes the value of the control with the number of the name, and the other
controls keep their values. -/
theorem apply_stores (s : Settings) (name text : String) :
    ((∃ s', apply name text s = .ok () s') ↔ ∃ x, ControlValue.read name text = .ok x) ∧
      (∀ fault s', apply name text s = .error fault s' ↔
        ControlValue.read name text = .error fault ∧ s' = s) ∧
      ∀ x, ControlValue.read name text = .ok x →
        ∃ i c s', Control.search? name = some i ∧ Control.ofIndex? i = some c ∧
          store name i x s = .ok () s' ∧ apply name text s = .ok () s' ∧
          s'.value c = x ∧ ∀ c', c' ≠ c → s'.value c' = s.value c' := by
  rw [apply_eq, ControlValue.read_eq, Control.search?_eq]
  -- applied or refused, and each of the two parts says so
  rcases s.apply_cases name text with
    ⟨c, x, s', hname, -, hassign, hparse, happly⟩ | ⟨fault, hparse, happly⟩
  · rw [hparse, happly, hname]
    refine ⟨iff_of_true ⟨s', rfl⟩ ⟨x, rfl⟩, fun _ _ => ⟨nofun, nofun⟩, ?_⟩
    rintro _ ⟨⟩
    obtain ⟨hvalue, hothers⟩ := assign?_eq_some hassign
    exact ⟨c.index, c, s', rfl, Control.ofIndex?_index c, store_eq hassign name, rfl, hvalue,
      hothers⟩
  -- the fault is that of the reading, and the settings are as they were
  · rw [hparse, happly]
    refine ⟨iff_of_false nofun nofun, fun fault' s' => ⟨?_, ?_⟩, nofun⟩
    · rintro ⟨⟩
      exact ⟨rfl, rfl⟩
    · rintro ⟨⟨⟩, rfl⟩
      rfl

/-- A law of detection under the short name of its control, which keeps the ratio; and a name that
no control goes by. -/
theorem apply_stores_detect :
    (∃ s', apply " DETECT" "Peak" {} = .ok () s' ∧ s'.value .detection = .detection .peak ∧
        s'.value .ratio = .ratio (.finite 2)) ∧
      apply "drive" "1" {} = .error (.unknownName "drive") {} := by
  -- the short name is found in any case, with blanks around it
  have hdetect : Control.named? " DETECT" = some .detection := by decide +kernel
  have hnumber : Control.search? " DETECT" = some Control.detection.index := by
    rw [Control.search?_eq, hdetect]
    rfl
  have hpeak : ControlValue.parse .detection "Peak" = .ok (.detection .peak) := by
    have hchoice : ControlValue.parseChoice Detection.ofName? Detection.ofIndex
        Detection.labels.length .detection (Text.trim "Peak".toList) = .ok .peak :=
      Result.toOption_eq_some_iff.mp (by decide +kernel)
    exact congrArg (Except.map ControlValue.detection) hchoice
  have hread : ControlValue.read " DETECT" "Peak" = .ok (.detection .peak) := by
    rw [ControlValue.read_eq, ControlValue.parseNamed_of_named hdetect, hpeak]
  have hdrive : ControlValue.read "drive" "1" = .error (.unknownName "drive") := by
    have hnone : Control.named? "drive" = none := by decide +kernel
    rw [ControlValue.read_eq, ControlValue.parseNamed, Control.resolve, hnone]
    rfl
  refine ⟨?_, ((apply_stores {} "drive" "1").2.1 _ _).mpr ⟨hdrive, rfl⟩⟩
  obtain ⟨i, c, s', hi, hc, -, happly, hvalue, hothers⟩ :=
    -- the control that was found has the number of the detection
    (apply_stores {} " DETECT" "Peak").2.2 _ hread
  obtain rfl := Option.some.inj (hnumber.symm.trans hi)
  obtain rfl := Option.some.inj ((Control.ofIndex?_index .detection).symm.trans hc)
  exact ⟨s', happly, hvalue, hothers .ratio (by decide)⟩

end Settings.InPlace

end DynamicRange
