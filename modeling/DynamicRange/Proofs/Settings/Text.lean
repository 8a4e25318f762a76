import DynamicRange.Proofs.Decimal.Shortest
import DynamicRange.Proofs.Settings.Validity
import DynamicRange.Proofs.Settings.Value
import DynamicRange.Proofs.Text

/-!
# The text of a control reads back

A control is written as a bare number, as a label, or as the word for the limit, and read with a
choice of units and words. A number has no character that a unit or a word has, so none of them is
taken for its end, and it is read as it was written.

## Key results

- `parse_text`, `parse_limit`, `parse_link`, `parse_detection`: a number, a word or a label is read
  as it is
- `format_cases`: the texts that are written
- `parse_format`: in valid settings the text of every control reads back to its value
-/

namespace DynamicRange

open Decimal (numerals)

/-- The controls whose values are numbers. -/
def Control.numeric : List Control := [.threshold, .attack, .release, .makeup, .knee, .mix]

namespace ControlValue

variable {x : Float32}

/-! ### Numbers -/

section Numbers

variable (hx : x.isFinite = true)
include hx

/-- The text of a number has no blanks. -/
theorem isBlank_text {c : Char} (hc : c ∈ (Decimal.text x).toList) : Text.isBlank c = false := by
  have hall : numerals.all (fun c => !Text.isBlank c) = true := by decide
  simpa using List.all_eq_true.mp hall c (Decimal.mem_numerals_of_mem_text hx hc)

/-- The text of a number is not trimmed. -/
theorem trim_text : Text.trim (Decimal.text x).toList = (Decimal.text x).toList :=
  Text.trim_of_bare (Text.bare_of_forall fun _ hc => isBlank_text hx hc)

/-- A word with a character beside those of numbers has one that is not in the text. -/
theorem exists_not_mem_text {word : List Char} (h : word.any (!numerals.contains ·) = true) :
    ∃ c ∈ word, c ∉ (Decimal.text x).toList := by
  obtain ⟨c, hword, hnumerals⟩ := List.any_eq_true.mp h
  refine ⟨c, hword, fun hc => ?_⟩
  have hmem := Decimal.mem_numerals_of_mem_text hx hc
  simp [hmem] at hnumerals

/-- The text of a number does not end in a unit. -/
theorem dropEnding?_text {ending : List Char} (h : ending.any (!numerals.contains ·) = true) :
    Text.dropEnding? ending (Decimal.text x).toList = none := by
  obtain ⟨c, hending, htext⟩ := exists_not_mem_text hx h
  exact Text.dropEnding?_eq_none hending htext

/-- The text of a number is in lower case. -/
theorem lower_text : Text.lower (Decimal.text x).toList = (Decimal.text x).toList := by
  have hsame : ∀ c ∈ (Decimal.text x).toList, c.toLower = id c := fun c hc =>
    Decimal.toLower_of_mem_numerals (Decimal.mem_numerals_of_mem_text hx hc)
  rw [Text.lower, List.map_congr_left hsame, List.map_id]

/-- The text of a number is read as the number. -/
theorem parseNumber_text (c : Control) : parseNumber c (Decimal.text x).toList = .ok x := by
  unfold parseNumber
  rw [trim_text hx, Decimal.single?_text hx]

/-- The text of a number is read as a level without a unit. -/
theorem parseLevel_text (c : Control) : parseLevel c (Decimal.text x).toList = .ok x := by
  -- no unit is made of digits, points and minuses only
  have hnone : Text.dropAnyEnding? ["dB".toList, "db".toList, "DB".toList]
      (Decimal.text x).toList = none := by
    have hall : ∀ ending ∈ ["dB".toList, "db".toList, "DB".toList],
        ending.any (!numerals.contains ·) = true := by
      decide
    exact List.findSome?_eq_none_iff.mpr fun ending h => dropEnding?_text hx (hall ending h)
  unfold parseLevel
  rw [hnone]
  exact parseNumber_text hx c

/-- The text of a number is read as a time without a unit. -/
theorem parseTime_text (c : Control) : parseTime c (Decimal.text x).toList = .ok x := by
  -- neither of the two units is an ending
  unfold parseTime
  rw [dropEnding?_text hx (by decide)]
  simp only
  rw [dropEnding?_text hx (by decide)]
  exact parseNumber_text hx c

/-- The text of a number is read as a share without a unit. -/
theorem parseShare_text (c : Control) : parseShare c (Decimal.text x).toList = .ok x := by
  unfold parseShare
  rw [dropEnding?_text hx (by decide)]
  exact parseNumber_text hx c

/-- The text of a number is read as a ratio. -/
theorem parseRatio_text (c : Control) :
    parseRatio c (Decimal.text x).toList = .ok (.finite x) := by
  -- nor is a word for the limit
  have hword : limitWords.contains (Decimal.text x).toList = false := by
    have hall : ∀ word ∈ limitWords, word.any (!numerals.contains ·) = true := by decide
    rw [← Bool.not_eq_true, List.contains_iff_mem]
    intro hmem
    obtain ⟨d, hd, htext⟩ := exists_not_mem_text hx (hall _ hmem)
    exact htext hd
  -- not a word, and without the ending of a ratio
  unfold parseRatio
  simp only [lower_text hx, hword]
  rw [dropEnding?_text hx (by decide), Option.getD_none, parseNumber_text hx c]
  rfl

/-- A control that is a number reads a number back. -/
theorem parse_text {c : Control} (hc : c ∈ Control.numeric) :
    parse c (Decimal.text x) = .ok (.number x) := by
  cases c with
  | threshold | makeup | knee => rw [parse, trim_text hx, parseLevel_text hx]; rfl
  | attack | release => rw [parse, trim_text hx, parseTime_text hx]; rfl
  | mix => rw [parse, trim_text hx, parseShare_text hx]; rfl
  | ratio | link | detection => exact absurd hc (by decide)

end Numbers

/-! ### Words -/

/-- The word for the limit is read as the limit. -/
theorem parse_limit : parse .ratio "limit" = .ok (.ratio .limit) := by
  have htrim : Text.trim "limit".toList = "limit".toList := by decide
  rw [parse, htrim]
  rfl

/-- A name is read as its choice. -/
theorem parseChoice_of_name {κ : Type} {ofName? : String → Option κ} {ofIndex : Nat → κ}
    {count : Nat} {choice : κ} {cs : List Char} (h : ofName? (String.ofList cs) = some choice)
    (c : Control) : parseChoice ofName? ofIndex count c cs = .ok choice := by
  unfold parseChoice
  rw [h]

/-- The label of a link mode is read as the mode. -/
theorem parse_link (mode : LinkMode) : parse .link mode.label = .ok (.link mode) := by
  have hname : LinkMode.ofName? (String.ofList (Text.trim mode.label.toList)) = some mode := by
    cases mode <;> decide
  rw [parse, parseChoice_of_name hname]
  rfl

/-- The label of a detection is read as the detection. -/
theorem parse_detection (law : Detection) : parse .detection law.label = .ok (.detection law) := by
  have hname : Detection.ofName? (String.ofList (Text.trim law.label.toList)) = some law := by
    cases law <;> decide
  rw [parse, parseChoice_of_name hname]
  rfl

end ControlValue

namespace Settings

open ControlValue

variable {s : Settings} (hs : s.Valid)
include hs

/-- A control that is a number has a finite one within its bounds, and is written as that. -/
theorem exists_number {c : Control} (hc : c ∈ Control.numeric) :
    ∃ x : Float32, x.isFinite = true ∧ s.value c = .number x ∧ s.format c = Decimal.text x := by
  cases c with
  | threshold => exact ⟨_, Range.isFinite_of_contains rfl rfl hs.threshold, rfl, rfl⟩
  | attack => exact ⟨_, Range.isFinite_of_contains rfl rfl hs.attack, rfl, rfl⟩
  | release => exact ⟨_, Range.isFinite_of_contains rfl rfl hs.release, rfl, rfl⟩
  | makeup => exact ⟨_, Range.isFinite_of_contains rfl rfl hs.makeup, rfl, rfl⟩
  | knee => exact ⟨_, Range.isFinite_of_contains rfl rfl hs.knee, rfl, rfl⟩
  | mix => exact ⟨_, Range.isFinite_of_contains rfl rfl hs.mix, rfl, rfl⟩
  | ratio | link | detection => exact absurd hc (by decide)

/-- The text of a control is that of a finite number, or one of a few words. -/
theorem format_cases (c : Control) :
    (∃ x : Float32, x.isFinite = true ∧ s.format c = Decimal.text x) ∨
      s.format c ∈ "limit" :: LinkMode.labels ++ Detection.labels := by
  by_cases hc : c ∈ Control.numeric
  · obtain ⟨x, hx, -, hformat⟩ := exists_number hs hc
    exact .inl ⟨x, hx, hformat⟩
  -- a finite ratio, the limit, or a label
  cases c with
  | ratio =>
    unfold format
    cases hr : s.ratio with
    | finite r => exact .inl ⟨r, Range.isFinite_of_contains rfl rfl (hs.ratio r hr), rfl⟩
    | limit => exact .inr List.mem_cons_self
  | link =>
    have hall : ∀ mode : LinkMode, mode.label ∈ "limit" :: LinkMode.labels ++ Detection.labels := by
      intro mode
      cases mode <;> decide
    exact .inr (hall s.link)
  | detection =>
    have hall : ∀ law : Detection, law.label ∈ "limit" :: LinkMode.labels ++ Detection.labels := by
      intro law
      cases law <;> decide
    exact .inr (hall s.detection)
  | threshold | attack | release | makeup | knee | mix => exact absurd (by decide) hc

/-- In valid settings the text of every control reads back to its value. -/
theorem parse_format (c : Control) : ControlValue.parse c (s.format c) = .ok (s.value c) := by
  -- a number, and then the kinds that are not numbers
  by_cases hc : c ∈ Control.numeric
  · obtain ⟨x, hx, hvalue, hformat⟩ := exists_number hs hc
    rw [hformat, hvalue]
    exact parse_text hx hc
  cases c with
  | ratio =>
    unfold format value
    cases hr : s.ratio with
    | finite r =>
      have hx := Range.isFinite_of_contains rfl rfl (hs.ratio r hr)
      rw [parse, trim_text hx, parseRatio_text hx]
      rfl
    | limit => exact parse_limit
  | link => exact parse_link s.link
  | detection => exact parse_detection s.detection
  | threshold | attack | release | makeup | knee | mix => exact absurd (by decide) hc

end Settings

end DynamicRange
