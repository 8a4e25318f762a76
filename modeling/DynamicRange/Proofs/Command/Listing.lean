import Mathlib.Logic.Basic
import DynamicRange.Command.Catalogue
import DynamicRange.Proofs.Command.Console
import DynamicRange.Proofs.Command.Override
import DynamicRange.Proofs.Settings.Validity

/-!
# The listing of a preset

`presets` with a name prints a heading and then one line for each control, with the value that the
preset resolves to. A line ends with a mark for a default, unless an entry has the stable name of
the control as its key. When a preset is resolved its keys are looked up, in any case and by the
name for display as well. So a control that the preset does not give is always marked and has its
default; one that the preset gives under another name is marked too, with the value of the preset.

## Key results

- `exec_showPreset`, `exec_showPreset_stop`: what is printed
- `settingLine_eq_markedLine_iff`, `settingLine_eq_plainLine_iff`: which lines are marked
- `mark_iff`: when the mark tells whether the preset gives the control
- `showPreset_marks`: all of it, and the factory presets
- `not_forall_marked_iff`: a value of the preset that is marked as a default
-/

namespace DynamicRange.Command

open Console
open Preset (addresses lastFor)

variable {w : World} {name : String} {target : Option String} {p : Preset} {s : Settings}
  {c : Control}

/-! ### What is printed -/

/-- The lines above those of the controls. -/
def heading (p : Preset) : List String :=
  [p.name, Text.rule p.name.utf8ByteSize] ++ p.description.toList ++
    ["", s!"Mode: {modeText p.mode}", "", "Parameters:"]

/-- The lines of a preset, first to last. -/
def listing (p : Preset) (s : Settings) : List String :=
  heading p ++ Control.all.map (settingLine p s)

/-- A preset that resolves is printed, and then exported if a file is given for it. -/
theorem exec_showPreset (hload : loadPreset w.files name = .ok p) (hs : p.settings = .ok s) :
    exec (showPreset name target) w =
      exec (target.elim (pure ()) (exportPreset p s))
        { w with lines := (listing p s).reverse ++ w.lines } := by
  -- looking at the files is a step of the command that changes nothing
  have hfiles : exec files w = (.ok w.files, w) := rfl
  unfold showPreset
  rw [exec_bind_ok hfiles, hload, exec_bind_ok (exec_attempt_ok ..)]
  rw [hs, exec_bind_ok (exec_attempt_ok ..), exec_bind_ok (exec_sayAll ..)]
  cases target <;> rfl

/-- Of a preset that is not found or does not resolve nothing is printed. -/
theorem exec_showPreset_stop
    (h : (∃ e, loadPreset w.files name = .error e) ∨
      ∃ p faults, loadPreset w.files name = .ok p ∧ p.settings = .error faults) :
    ∃ stop, exec (showPreset name target) w = (.error stop, w) := by
  have hfiles : exec files w = (.ok w.files, w) := rfl
  unfold showPreset
  rw [exec_bind_ok hfiles]
  -- either there is no such preset, or its entries do not resolve
  rcases h with ⟨e, hload⟩ | ⟨p, faults, hload, hs⟩
  · rw [hload]
    exact ⟨_, exec_bind_error (exec_attempt_error ..) _⟩
  · rw [hload, exec_bind_ok (exec_attempt_ok ..)]
    rw [hs]
    exact ⟨_, exec_bind_error (exec_attempt_error ..) _⟩

/-! ### Marks -/

/-- The line of a control without a mark. -/
def plainLine (s : Settings) (c : Control) : String :=
  s!"  {Text.padEnd 10 c.id} = {s.format c}"

/-- The line of a control with the mark. -/
def markedLine (s : Settings) (c : Control) : String := plainLine s c ++ " (default)"

/-- A line with the mark is not one without it. -/
theorem markedLine_ne_plainLine (s : Settings) (c : Control) : markedLine s c ≠ plainLine s c := by
  intro h
  -- the mark has ten characters
  have hlength := congrArg String.length h
  rw [markedLine, String.length_append] at hlength
  have hmark : " (default)".length = 10 := rfl
  omega

/-- A key of the preset is a name of the control. -/
def IsGiven (p : Preset) (c : Control) : Prop :=
  ∃ entry ∈ p.params.toList, addresses c entry = true

/-- A key of the preset is the stable name of the control. -/
def HasId (p : Preset) (c : Control) : Prop := ∃ entry ∈ p.params.toList, entry.1 = c.id

/-- Reading the entries by the stable name finds something if the name is one of the keys. -/
theorem isSome_get?_iff : (p.params.get? c.id).isSome = true ↔ HasId p c := by
  rw [Entries.get?, List.lookup_isSome_iff]
  refine exists_congr fun entry => and_congr_right fun _ => ?_
  rw [beq_iff_eq, eq_comm]

/-- The stable name is a name of the control. -/
theorem HasId.isGiven (h : HasId p c) : IsGiven p c := by
  obtain ⟨entry, hentry, hid⟩ := h
  exact ⟨entry, hentry, decide_eq_true (hid ▸ c.named?_id)⟩

/-- The line of a control that is given under its stable name has no mark. -/
theorem settingLine_of_hasId (h : HasId p c) (s : Settings) :
    settingLine p s c = plainLine s c := by
  unfold settingLine
  rw [if_pos (isSome_get?_iff.mpr h)]
  exact String.append_empty

/-- The line of a control that is not given under its stable name has the mark. -/
theorem settingLine_of_not_hasId (h : ¬HasId p c) (s : Settings) :
    settingLine p s c = markedLine s c := by
  unfold settingLine
  rw [if_neg (mt isSome_get?_iff.mp h)]
  rfl

/-- The mark tells that the stable name is not among the keys. -/
theorem settingLine_eq_markedLine_iff : settingLine p s c = markedLine s c ↔ ¬HasId p c := by
  constructor
  · intro h hid
    exact markedLine_ne_plainLine s c (h.symm.trans (settingLine_of_hasId hid s))
  · intro h
    exact settingLine_of_not_hasId h s

/-- A line without the mark tells that the stable name is among the keys. -/
theorem settingLine_eq_plainLine_iff : settingLine p s c = plainLine s c ↔ HasId p c := by
  constructor
  · intro h
    refine Classical.byContradiction fun hid => ?_
    exact markedLine_ne_plainLine s c ((settingLine_of_not_hasId hid s).symm.trans h)
  · intro h
    exact settingLine_of_hasId h s

/-- A mark tells that the preset does not give the control, but for a control that is given under
another name only. -/
theorem mark_iff :
    (settingLine p s c = markedLine s c ↔ ¬IsGiven p c) ↔ (IsGiven p c → HasId p c) := by
  rw [settingLine_eq_markedLine_iff, not_iff_not]
  exact ⟨fun h => h.mpr, fun h => ⟨HasId.isGiven, h⟩⟩

/-- In a preset of stable names, a control that is given is given under its stable name. -/
theorem hasId_of_isStable (h : IsStable p) (hgiven : IsGiven p c) : HasId p c := by
  obtain ⟨entry, hentry, haddresses⟩ := hgiven
  exact ⟨entry, hentry, h entry hentry c haddresses⟩

/-- A control that the preset does not give has its default. -/
theorem value_of_not_isGiven (hs : p.settings = .ok s) (h : ¬IsGiven p c) :
    s.value c = ({} : Settings).value c := by
  -- no entry addresses the control, so none is read into it
  obtain ⟨-, -, rfl⟩ := (p.settings_eq_ok_iff s).mp hs
  have hnone : p.params.toList.filter (addresses c) = [] :=
    List.filter_eq_nil_iff.mpr fun entry hentry haddresses => h ⟨entry, hentry, haddresses⟩
  rw [Preset.applied, Preset.value_foldl_applyEntry, hnone]
  rfl

/-! ### A value that is marked as a default -/

/-- A document that gives the ratio in another case. -/
private def ratioDocument : String := "name = \"P\"\n\n[params]\nRatio = \"4\"\n"

/-- The preset of the document. -/
private def ratioPreset : Preset where
  name := "P"
  params := .ofList [("Ratio", "4")]

/-- The document is found, read and parsed. -/
private theorem loadPreset_ratio :
    loadPreset (.ofDocument ratioDocument) "p.toml" = .ok ratioPreset := by
  refine Result.toOption_eq_some_iff.mp ?_
  -- with the document found, all that is left is to parse its text
  unfold loadPreset Preset.find FileTree.isFile Preset.load FileTree.readText FileTree.readBytes
  simp only [FileTree.find_ofDocument]
  decide +kernel

/-- The preset resolves. -/
private theorem exists_settings_ratio : ∃ s, ratioPreset.settings = .ok s := by
  have hsome : ratioPreset.settings.toOption.isSome = true := by decide
  obtain ⟨s, hs⟩ := Option.isSome_iff_exists.mp hsome
  exact ⟨s, Result.toOption_eq_some_iff.mp hs⟩

/-- The ratio is given, but not under its stable name. -/
private theorem ratio_given : IsGiven ratioPreset .ratio ∧ ¬HasId ratioPreset .ratio := by
  have hparams : ratioPreset.params.toList = [("Ratio", "4")] := rfl
  unfold IsGiven HasId
  rw [hparams]
  simp only [List.mem_singleton, exists_eq_left]
  exact ⟨by decide, by decide⟩

/-- A preset that resolves is printed with one line for each control below its heading, and then
exported if a file is given for it. The line of a control is marked as default if no key of the
preset is the stable name of the control, and else it is not. A control that the preset does not
give is marked and has its default, and a control that it gives has the value of the last entry for
it. So the mark tells whether the control is given, unless it is given under other names only, and
it does so for all controls of the factory presets. -/
theorem showPreset_marks (hload : loadPreset w.files name = .ok p) (hs : p.settings = .ok s) :
    exec (presets (some name) none) w =
        (.ok (), { w with lines := (listing p s).reverse ++ w.lines }) ∧
      (∀ file, exec (presets (some name) (some file)) w =
        exec (exportPreset p s file) { w with lines := (listing p s).reverse ++ w.lines }) ∧
      (∀ c, (settingLine p s c = markedLine s c ↔ ¬HasId p c) ∧
        (settingLine p s c = plainLine s c ↔ HasId p c) ∧
        (¬IsGiven p c →
          settingLine p s c = markedLine s c ∧ s.value c = ({} : Settings).value c) ∧
        (∀ entry, lastFor c p.params.toList = some entry →
          ControlValue.parse c entry.2 = .ok (s.value c)) ∧
        ((settingLine p s c = markedLine s c ↔ ¬IsGiven p c) ↔ (IsGiven p c → HasId p c))) ∧
      ∀ name', Preset.factory? name' = some p →
        ∀ c, settingLine p s c = markedLine s c ↔ ¬IsGiven p c := by
  have hrun (target : Option String) : exec (presets (some name) target) w =
      exec (target.elim (pure ()) (exportPreset p s))
        { w with lines := (listing p s).reverse ++ w.lines } := exec_showPreset hload hs
  -- with and without a file for the export it is the same run up to the listing
  refine ⟨hrun none, fun file => hrun (some file), fun c => ?_, ?_⟩
  · refine ⟨settingLine_eq_markedLine_iff, settingLine_eq_plainLine_iff, fun h => ⟨?_, ?_⟩,
      fun entry => Preset.value_of_last hs, mark_iff⟩
    · exact settingLine_of_not_hasId (mt HasId.isGiven h) s
    · exact value_of_not_isGiven hs h
  · intro name' hname c
    -- a factory preset gives every control it gives under its stable name
    exact mark_iff.mpr (hasId_of_isStable (isStable_of_factory hname))

/-- The ratio is given as `Ratio`, and its line is marked. -/
theorem showPreset_marks_ratio :
    ∃ s, ratioPreset.settings = .ok s ∧
      exec (presets (some "p.toml") none) ⟨.ofDocument ratioDocument, []⟩ =
        (.ok (), ⟨.ofDocument ratioDocument, (listing ratioPreset s).reverse ++ []⟩) ∧
      IsGiven ratioPreset .ratio ∧
      settingLine ratioPreset s .ratio = markedLine s .ratio ∧
      ControlValue.parse .ratio "4" = .ok (s.value .ratio) := by
  obtain ⟨s, hs⟩ := exists_settings_ratio
  obtain ⟨hrun, -, hmarks, -⟩ :=
    showPreset_marks (w := ⟨.ofDocument ratioDocument, []⟩) loadPreset_ratio hs
  obtain ⟨hmarked, -, -, hlast, -⟩ := hmarks .ratio
  -- the entry that the ratio is read from is the one for `Ratio`
  have hentry : lastFor .ratio ratioPreset.params.toList = some ("Ratio", "4") := by
    decide +kernel
  exact ⟨s, hs, hrun, ratio_given.1, hmarked.mpr ratio_given.2, hlast _ hentry⟩

/-- A value that a preset gives is shown as a default. -/
theorem not_forall_marked_iff :
    ¬∀ (t : FileTree) (name : String) (p : Preset) (s : Settings) (w : World),
      loadPreset t name = .ok p → p.settings = .ok s →
      exec (presets (some name) none) ⟨t, []⟩ = (.ok (), w) →
      ∀ c, markedLine s c ∈ w.lines ↔ ¬IsGiven p c := by
  intro h
  obtain ⟨s, hs⟩ := exists_settings_ratio
  have hrun : exec (showPreset "p.toml" none) ⟨.ofDocument ratioDocument, []⟩ =
      (.ok (), ⟨.ofDocument ratioDocument, (listing ratioPreset s).reverse ++ []⟩) :=
    exec_showPreset (w := ⟨.ofDocument ratioDocument, []⟩) loadPreset_ratio hs
  -- the marked line is one of those printed
  have hline : markedLine s .ratio ∈ (listing ratioPreset s).reverse ++ [] := by
    rw [List.append_nil, List.mem_reverse, listing, List.mem_append, List.mem_map]
    exact .inr ⟨.ratio, Control.mem_all .ratio, settingLine_of_not_hasId ratio_given.2 s⟩
  exact (h _ _ _ _ _ loadPreset_ratio hs hrun .ratio).mp hline ratio_given.1

end DynamicRange.Command
