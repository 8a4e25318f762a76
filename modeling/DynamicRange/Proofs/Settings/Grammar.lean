import DynamicRange.Proofs.Decimal.Literal
import DynamicRange.Proofs.Settings.Value

/-!
# What may be written for a control

A control takes a number with one of its units, one of its words, or the index of one of its
choices. The units are tried one after another, each as an ending of the text, and the number is
what is left. A unit that is tried early is never found where a later one is meant, since no number
ends in a part of it; so a text has one reading. Only the words for the limit may also be numbers,
and then the word counts.

## Key results

- `measured_eq_some_iff`: the trial of the units against the form of the text
- `parse_eq_ok_iff`: what is read, by the three forms
- `parseNamed_grammar`: the same under a name, with the uniqueness of the reading and the fault of
  every other text
-/

namespace DynamicRange

open Text (AllBlank lower trim dropEnding?)

/-- The control of a fault that is about the form of a text. -/
def Fault.misread? : Fault → Option Control
  | .notANumber c _ | .notOneOf c _ => some c
  | .unknownName _ | .outOfRange _ => none

namespace ControlValue

/-! ### The forms -/

/-- The units of a control, each with the value that it makes of a number. A number without a unit
is one with the empty unit. -/
def units : Control → List (String × (Float32 → ControlValue))
  | .threshold | .makeup | .knee =>
    ["dB", "db", "DB"].map (·, fun x => number (Scalar.gainOfDecibels x)) ++ [("", number)]
  | .attack | .release => [("ms", number), ("s", fun x => number (x * 1000)), ("", number)]
  | .mix => [("%", fun x => number (x / 100)), ("", number)]
  | .ratio => [(":1", fun x => ratio (.finite x)), ("", fun x => ratio (.finite x))]
  | .link | .detection => []

/-- The words of a control, in lower case. -/
def words : Control → List (String × ControlValue)
  | .ratio => ["limit", "inf", "infinity", "∞", "∞:1", "inf:1"].map (·, ratio .limit)
  | .link => [("average", link .average), ("maximum", link .maximum)]
  | .detection => [("peak", detection .peak), ("rms", detection .rms)]
  | _ => []

/-- The values that a control can be given by an index. -/
def choices : Control → List ControlValue
  | .link => [link .average, link .maximum]
  | .detection => [detection .peak, detection .rms]
  | _ => []

/-- The text is a number literal with a unit. Blanks may stand around it, and before the unit. -/
def ByNumber (c : Control) (text : String) (v : ControlValue) : Prop :=
  ∃ unit reading, (unit, reading) ∈ units c ∧ ∃ before literal between after x,
    AllBlank before ∧ AllBlank between ∧ AllBlank after ∧
      text.toList = before ++ literal ++ between ++ unit.toList ++ after ∧
      Decimal.single? literal = some x ∧ v = reading x

/-- The text is a word, in any case. Blanks may stand around it. -/
def ByWord (c : Control) (text : String) (v : ControlValue) : Prop :=
  ∃ word, (word, v) ∈ words c ∧ ∃ before body after, AllBlank before ∧ AllBlank after ∧
    text.toList = before ++ body ++ after ∧ lower body = word.toList

/-- The text is the index of a choice. Blanks may stand around it. -/
def ByIndex (c : Control) (text : String) (v : ControlValue) : Prop :=
  ∃ i, (choices c)[i]? = some v ∧ ∃ before body after, AllBlank before ∧ AllBlank after ∧
    text.toList = before ++ body ++ after ∧ Decimal.boundedNatural? (2 ^ 64 - 1) body = some i

/-- The text has one of the three forms. -/
def Spells (c : Control) (text : String) (v : ControlValue) : Prop :=
  ByWord c text v ∨ ByNumber c text v ∨ ByIndex c text v

/-! ### Trimmed texts -/

section Trimmed

variable {c : Control} {text : String} {v : ControlValue}

/-- A text has the form of a word when it is one after trimming, in any case. -/
theorem byWord_iff :
    ByWord c text v ↔ ∃ word, (word, v) ∈ words c ∧ lower (trim text.toList) = word.toList := by
  have hbare : (words c).all (fun (word, _) => word.toList.all (!Text.isBlank ·)) = true := by
    cases c <;> decide
  constructor
  -- no word has a blank, so that trimming leaves it whole
  · rintro ⟨word, hword, before, body, after, hbefore, hafter, htext, hbody⟩
    refine ⟨word, hword, ?_⟩
    have hblank : ∀ d ∈ word.toList, Text.isBlank d = false := by
      simpa using List.all_eq_true.mp (List.all_eq_true.mp hbare _ hword)
    rw [htext, Text.trim_around hbefore hafter, ← Text.trim_lower, hbody,
      Text.trim_of_bare (Text.bare_of_forall hblank)]
  -- the blanks that trimming takes off are those around the word
  · rintro ⟨word, hword, hbody⟩
    obtain ⟨before, after, hbefore, hafter, htext⟩ := Text.exists_around text.toList
    exact ⟨word, hword, before, _, after, hbefore, hafter, htext, hbody⟩

/-- A text has the form of an index when it is one after trimming. -/
theorem byIndex_iff :
    ByIndex c text v ↔
      ∃ i, (choices c)[i]? = some v ∧
        Decimal.boundedNatural? (2 ^ 64 - 1) (trim text.toList) = some i := by
  constructor
  · rintro ⟨i, hi, before, body, after, hbefore, hafter, htext, hbody⟩
    refine ⟨i, hi, ?_⟩
    -- an index has no blanks either
    have hbare := Text.bare_of_forall (Decimal.boundedNatural?_spec hbody).2
    rw [htext, Text.trim_around hbefore hafter, Text.trim_of_bare hbare, hbody]
  · rintro ⟨i, hi, hbody⟩
    obtain ⟨before, after, hbefore, hafter, htext⟩ := Text.exists_around text.toList
    exact ⟨i, hi, before, _, after, hbefore, hafter, htext, hbody⟩

/-- No unit has a blank. -/
private theorem isBlank_unit {unit : String} {reading : Float32 → ControlValue}
    (h : (unit, reading) ∈ units c) : ∀ d ∈ unit.toList, Text.isBlank d = false := by
  have hall : (units c).all (fun m => m.1.toList.all (!Text.isBlank ·)) = true := by
    cases c <;> decide
  simpa using List.all_eq_true.mp (List.all_eq_true.mp hall _ h)

/-- A literal with a unit that is not empty is not trimmed. -/
private theorem bare_append {literal between unit : List Char} {x : Float32}
    (hliteral : Decimal.single? literal = some x) (hunit : ∀ d ∈ unit, Text.isBlank d = false)
    (hne : unit ≠ []) : Text.Bare (literal ++ between ++ unit) where
  head := by
    cases literal with
    | nil => exact nomatch hliteral
    | cons d rest =>
      have hd := Decimal.isBlank_eq_false (Decimal.mem_of_single? hliteral d List.mem_cons_self)
      simpa using hd
  last := by
    intro d hd
    rw [List.getLast?_append_of_ne_nil _ hne] at hd
    exact hunit d (List.mem_of_getLast? hd)

/-- A text has the form of a number when it ends in a unit after trimming, and the rest is a literal
after trimming. -/
theorem byNumber_iff :
    ByNumber c text v ↔ ∃ unit reading, (unit, reading) ∈ units c ∧ ∃ rest x,
      trim text.toList = rest ++ unit.toList ∧ Decimal.single? (trim rest) = some x ∧
        v = reading x := by
  constructor
  · rintro ⟨unit, reading, hmem, before, literal, between, after, x, hbefore, hbetween, hafter, htext,
      hliteral, rfl⟩
    refine ⟨unit, reading, hmem, ?_⟩
    have hblank : ∀ d ∈ literal, Text.isBlank d = false := fun d hd =>
      Decimal.isBlank_eq_false (Decimal.mem_of_single? hliteral d hd)
    have hbare : trim literal = literal := Text.trim_of_bare (Text.bare_of_forall hblank)
    by_cases hunit : unit.toList = []
    · -- without a unit, the blanks between are blanks after
      refine ⟨literal, x, ?_, by rw [hbare, hliteral], rfl⟩
      rw [htext, hunit, List.append_nil, List.append_nil, List.append_assoc,
        Text.trim_around hbefore (hbetween.append hafter), hbare]
    -- with a unit the blanks between are trimmed with the literal
    · refine ⟨literal ++ between, x, ?_, ?_, rfl⟩
      · have hwhole : text.toList = before ++ (literal ++ between ++ unit.toList) ++ after := by
          simp [htext]
        rw [hwhole, Text.trim_around hbefore hafter,
          Text.trim_of_bare (bare_append hliteral (isBlank_unit hmem) hunit)]
      · have hnone : AllBlank [] := by simp [AllBlank]
        rw [← List.nil_append literal, Text.trim_around hnone hbetween, hbare, hliteral]
  -- the blanks around the whole text, and those around what stands before the unit
  · rintro ⟨unit, reading, hmem, rest, x, htext, hrest, rfl⟩
    obtain ⟨before, after, hbefore, hafter, houter⟩ := Text.exists_around text.toList
    obtain ⟨before', between, hbefore', hbetween, hinner⟩ := Text.exists_around rest
    refine ⟨unit, reading, hmem, before ++ before', trim rest, between, after, x,
      hbefore.append hbefore', hbetween, hafter, ?_, hrest, rfl⟩
    rw [houter, htext]
    simp [← hinner]

end Trimmed

/-! ### The trial of the units -/

/-- The number before the first unit that a text ends in, in that unit. -/
def measured (c : Control) (cs : List Char) : Option (Except Fault ControlValue) :=
  (units c).findSome? fun m =>
    (dropEnding? m.1.toList cs).map fun rest => (parseNumber c rest).map m.2

/-- A character that neither stands in a literal nor is a blank. -/
private def isForeign (d : Char) : Bool :=
  !Decimal.literalCharacters.contains d.toLower && !Text.isBlank d

/-- No unit of a control is taken for another one, and each is listed once. -/
private theorem units_apart (c : Control) :
    (units c).Pairwise fun m m' =>
      Text.toldApart isForeign m.1.toList m'.1.toList = true := by
  have hnames : ((units c).map fun m => m.1.toList).Pairwise fun e e' =>
      Text.toldApart isForeign e e' = true := by
    cases c <;> decide
  exact List.pairwise_map.mp hnames

/-- Reading a number succeeds just when the trimmed text is a literal. -/
private theorem parseNumber_eq_ok_iff {c : Control} {cs : List Char} {x : Float32} :
    parseNumber c cs = .ok x ↔ Decimal.single? (trim cs) = some x := by
  unfold parseNumber
  cases Decimal.single? (trim cs) with
  | none => exact ⟨nofun, nofun⟩
  | some y => exact ⟨fun h => congrArg some (Except.ok.inj h), fun h => congrArg _ (Option.some.inj h)⟩

/-- The trial of the units reads a text just when it is a literal with one of them. -/
theorem measured_eq_some_iff {c : Control} {cs : List Char} {v : ControlValue} :
    measured c cs = some (.ok v) ↔ ∃ unit reading, (unit, reading) ∈ units c ∧ ∃ rest x,
      cs = rest ++ unit.toList ∧ Decimal.single? (trim rest) = some x ∧ v = reading x := by
  constructor
  · intro h
    obtain ⟨⟨unit, reading⟩, hmem, hfound⟩ := List.exists_of_findSome?_eq_some h
    obtain ⟨rest, hrest, hparse⟩ := Option.map_eq_some_iff.mp hfound
    obtain ⟨x, hx, rfl⟩ := Result.map_eq_ok_iff.mp hparse
    exact ⟨unit, reading, hmem, rest, x, Text.dropEnding?_eq_some_iff.mp hrest,
      parseNumber_eq_ok_iff.mp hx, rfl⟩
  · rintro ⟨unit, reading, hmem, rest, x, rfl, hx, rfl⟩
    -- what stands before the unit is blank or part of a literal, and foreign to every unit
    have hrest : ∀ d ∈ rest, isForeign d = false := by
      obtain ⟨before, after, hbefore, hafter, hsplit⟩ := Text.exists_around rest
      intro d hd
      rw [hsplit, List.append_assoc, List.mem_append, List.mem_append] at hd
      rcases hd with hd | hd | hd
      · simp [isForeign, hbefore d hd]
      · simp [isForeign, Decimal.mem_of_single? hx d hd]
      · simp [isForeign, hafter d hd]
    obtain ⟨tried, later, hunits⟩ := List.append_of_mem hmem
    have hpairs := units_apart c
    rw [hunits, List.pairwise_append] at hpairs
    -- none of the units tried before is an ending
    have htried : tried.findSome? (fun m =>
        (dropEnding? m.1.toList (rest ++ unit.toList)).map fun rest =>
          (parseNumber c rest).map m.2) = none := by
      rw [List.findSome?_eq_none_iff]
      intro m hm
      have hapart := hpairs.2.2 m hm _ List.mem_cons_self
      rw [Text.dropEnding?_append_eq_none hapart hrest, Option.map_none]
    -- this unit is one, and the text before it is read
    have hdrop : dropEnding? unit.toList (rest ++ unit.toList) = some rest :=
      Text.dropEnding?_eq_some_iff.mpr rfl
    unfold measured
    rw [hunits, List.findSome?_append, htried, Option.none_or, List.findSome?_cons]
    simp only [hdrop, Option.map_some, parseNumber_eq_ok_iff.mpr hx]
    rfl

/-- The empty unit is an ending of every text. -/
@[simp] private theorem dropEnding?_nil (cs : List Char) : dropEnding? [] cs = some cs :=
  Text.dropEnding?_eq_some_iff.mpr (by simp)

/-- Mapping twice is mapping once with the composition. -/
private theorem map_map {α β γ : Type} (x : Except Fault α) (f : α → β) (g : β → γ) :
    (x.map f).map g = x.map fun a => g (f a) := by
  cases x <;> rfl

/-- The trial of the units of a level is the parser of levels. -/
theorem measured_level {c : Control} (hc : units c = units .threshold) (cs : List Char) :
    measured c cs = some ((parseLevel c cs).map number) := by
  unfold measured parseLevel Text.dropAnyEnding?
  rw [hc]
  simp only [units, List.map_cons, List.map_nil, List.cons_append, List.nil_append,
    List.findSome?_cons, List.findSome?_nil]
  -- the three spellings of the unit, one after another, and then no unit
  cases dropEnding? "dB".toList cs with
  | some rest => simp [map_map]
  | none =>
    cases dropEnding? "db".toList cs with
    | some rest => simp [map_map]
    | none =>
      cases dropEnding? "DB".toList cs with
      | some rest => simp [map_map]
      | none => simp

/-- The trial of the units of a time is the parser of times. -/
theorem measured_time {c : Control} (hc : units c = units .attack) (cs : List Char) :
    measured c cs = some ((parseTime c cs).map number) := by
  unfold measured parseTime
  rw [hc]
  simp only [units, List.findSome?_cons, List.findSome?_nil]
  cases dropEnding? "ms".toList cs with
  | some rest => simp
  | none =>
    cases dropEnding? "s".toList cs with
    | some rest => simp [map_map]
    | none => simp

/-- The trial of the unit of the mix is the parser of shares. -/
theorem measured_mix (cs : List Char) :
    measured .mix cs = some ((parseShare .mix cs).map number) := by
  unfold measured parseShare
  simp only [units, List.findSome?_cons, List.findSome?_nil]
  cases dropEnding? "%".toList cs with
  | some rest => simp [map_map]
  | none => simp

/-- A ratio that is no word is measured in lower case. -/
theorem measured_ratio {cs : List Char} (hword : limitWords.contains (lower cs) = false) :
    measured .ratio (lower cs) = some ((parseRatio .ratio cs).map ratio) := by
  unfold measured parseRatio
  simp only [units, List.findSome?_cons, List.findSome?_nil, hword]
  -- the unit, or the whole text as a number
  cases dropEnding? ":1".toList (lower cs) with
  | some rest => simp [map_map]
  | none => simp [map_map]

/-- The case of a ratio does not matter: its units have no letters. -/
theorem measured_lower {cs : List Char} {v : ControlValue} :
    measured .ratio (lower cs) = some (.ok v) ↔ measured .ratio cs = some (.ok v) := by
  have hletters : (units .ratio).all (fun m => m.1.toList.all (!Char.isAlpha ·)) = true := by decide
  rw [measured_eq_some_iff, measured_eq_some_iff]
  constructor
  -- the text in lower case is split where the text itself is
  · rintro ⟨unit, reading, hmem, rest, x, htext, hx, rfl⟩
    obtain ⟨rest', ending, rfl, rfl, hending⟩ := List.map_eq_append_iff.mp htext
    have hunit : ∀ d ∈ unit.toList, d.isAlpha = false := by
      simpa using List.all_eq_true.mp (List.all_eq_true.mp hletters _ hmem)
    refine ⟨unit, reading, hmem, rest', x, ?_, ?_, rfl⟩
    · rw [(Text.lower_eq_iff hunit).mp hending]
    · rwa [← Decimal.single?_lower, ← Text.trim_lower]
  -- a literal in lower case is the same number
  · rintro ⟨unit, reading, hmem, rest, x, rfl, hx, rfl⟩
    have hunit : ∀ d ∈ unit.toList, d.isAlpha = false := by
      simpa using List.all_eq_true.mp (List.all_eq_true.mp hletters _ hmem)
    refine ⟨unit, reading, hmem, lower rest, x, ?_, ?_, rfl⟩
    · rw [Text.lower_append, (Text.lower_eq_iff hunit).mpr rfl]
    · rw [Text.trim_lower, Decimal.single?_lower, hx]

/-! ### Choices -/

/-- A control is a choice of modes, each with a label in lower case and an index. -/
structure IsChoice {κ : Type} (c : Control) (ofName? : String → Option κ) (ofIndex : Nat → κ)
    (modes : List κ) (label : κ → String) (wrap : κ → ControlValue) : Prop where
  ofName?_eq : ∀ name, ofName? name = modes.find? fun mode => Text.sameName (label mode) name
  lower_label : ∀ mode ∈ modes, lower (label mode).toList = (label mode).toList
  label_injective : ∀ mode mode', label mode = label mode' → mode = mode'
  getElem?_eq : ∀ i < modes.length, modes[i]? = some (ofIndex i)
  words_eq : words c = modes.map fun mode => (label mode, wrap mode)
  choices_eq : choices c = modes.map wrap

/-- The link of the channels is a choice of two modes. -/
theorem isChoice_link : IsChoice .link LinkMode.ofName? LinkMode.ofIndex [.average, .maximum]
    LinkMode.label link where
  ofName?_eq _ := rfl
  lower_label mode _ := by cases mode <;> decide
  label_injective mode mode' h := by cases mode <;> cases mode' <;> simp_all [LinkMode.label]
  getElem?_eq i hi := by
    match i, hi with
    | 0, _ => rfl
    | 1, _ => rfl
  words_eq := rfl
  choices_eq := rfl

/-- The detection is a choice of two modes. -/
theorem isChoice_detection : IsChoice .detection Detection.ofName? Detection.ofIndex [.peak, .rms]
    Detection.label detection where
  ofName?_eq _ := rfl
  lower_label law _ := by cases law <;> decide
  label_injective law law' h := by cases law <;> cases law' <;> simp_all [Detection.label]
  getElem?_eq i hi := by
    match i, hi with
    | 0, _ => rfl
    | 1, _ => rfl
  words_eq := rfl
  choices_eq := rfl

namespace IsChoice

variable {κ : Type} {c : Control} {ofName? : String → Option κ} {ofIndex : Nat → κ}
  {modes : List κ} {label : κ → String} {wrap : κ → ControlValue}
  (h : IsChoice c ofName? ofIndex modes label wrap)
include h

/-- The mode of a name is the one with that label. -/
theorem ofName?_eq_some_iff (cs : List Char) (mode : κ) :
    ofName? (String.ofList cs) = some mode ↔ mode ∈ modes ∧ lower cs = (label mode).toList := by
  have hsame : ∀ mode ∈ modes, Text.sameName (label mode) (String.ofList cs) = true ↔
      lower cs = (label mode).toList := by
    intro mode hmode
    rw [Text.sameName, String.toList_ofList, beq_iff_eq, h.lower_label mode hmode]
    exact eq_comm
  rw [h.ofName?_eq]
  -- the search finds the first mode with the label, and no two modes have the same
  constructor
  · intro hfind
    have hmem := List.mem_of_find?_eq_some hfind
    have hfound := List.find?_eq_some_iff_append.mp hfind
    exact ⟨hmem, (hsame mode hmem).mp hfound.1⟩
  · rintro ⟨hmem, hlabel⟩
    cases hfind : modes.find? fun mode => Text.sameName (label mode) (String.ofList cs) with
    | none => exact absurd ((hsame mode hmem).mpr hlabel) (List.find?_eq_none.mp hfind mode hmem)
    | some mode' =>
      have hmem' := List.mem_of_find?_eq_some hfind
      have hlabel' := (hsame mode' hmem').mp (List.find?_eq_some_iff_append.mp hfind).1
      rw [h.label_injective mode' mode (String.toList_inj.mp (hlabel'.symm.trans hlabel))]

/-- A text is a word of the control when it is the label of a mode. -/
theorem word_iff (cs : List Char) (v : ControlValue) :
    (∃ word, (word, v) ∈ words c ∧ lower cs = word.toList) ↔
      ∃ mode, ofName? (String.ofList cs) = some mode ∧ v = wrap mode := by
  simp only [h.words_eq, h.ofName?_eq_some_iff, List.mem_map]
  constructor
  · rintro ⟨word, ⟨mode, hmem, hpair⟩, heq⟩
    obtain ⟨rfl, rfl⟩ := Prod.mk.inj hpair
    exact ⟨mode, ⟨hmem, heq⟩, rfl⟩
  · rintro ⟨mode, ⟨hmem, heq⟩, rfl⟩
    exact ⟨label mode, ⟨mode, hmem, rfl⟩, heq⟩

/-- The value of an index, if there are that many modes. -/
theorem choice_iff (i : Nat) (v : ControlValue) :
    (choices c)[i]? = some v ↔ i < modes.length ∧ v = wrap (ofIndex i) := by
  rw [h.choices_eq, List.getElem?_map]
  by_cases hi : i < modes.length
  · rw [h.getElem?_eq i hi]
    simp [hi, eq_comm]
  · simp [hi]

/-- A choice is read by its label, or by its index when the text is no label. -/
theorem parseChoice_eq_ok_iff (cs : List Char) (v : ControlValue) :
    (parseChoice ofName? ofIndex modes.length c cs).map wrap = .ok v ↔
      (∃ word, (word, v) ∈ words c ∧ lower cs = word.toList) ∨
        (∀ v', ¬∃ word, (word, v') ∈ words c ∧ lower cs = word.toList) ∧
          ∃ i, (choices c)[i]? = some v ∧ Decimal.boundedNatural? (2 ^ 64 - 1) cs = some i := by
  -- names and indices in terms of the modes
  simp only [h.word_iff, h.choice_iff]
  have htop : (1 <<< 64) - 1 = 2 ^ 64 - 1 := by decide
  unfold parseChoice
  simp only [htop]
  -- a label is read first, and an index only if the text is none
  cases ofName? (String.ofList cs) with
  | some mode => simp [Except.map, eq_comm]
  | none =>
    cases Decimal.boundedNatural? (2 ^ 64 - 1) cs with
    | none => simp [Except.map]
    | some i =>
      by_cases hi : i < modes.length
      · simp [hi, Except.map, eq_comm]
      · simp [hi, Except.map]

end IsChoice

/-! ### All controls -/

variable {c : Control} {text : String} {v : ControlValue}

/-- The words of a ratio are those for the limit. -/
theorem byWord_ratio_iff :
    ByWord .ratio text v ↔ lower (trim text.toList) ∈ limitWords ∧ v = ratio .limit := by
  rw [byWord_iff]
  simp only [words, limitWords, List.mem_map]
  constructor
  · rintro ⟨word, ⟨word', hmem, hpair⟩, heq⟩
    obtain ⟨rfl, rfl⟩ := Prod.mk.inj hpair
    exact ⟨⟨word', hmem, heq.symm⟩, rfl⟩
  · rintro ⟨⟨word, hmem, heq⟩, rfl⟩
    exact ⟨word, ⟨word, hmem, rfl⟩, heq.symm⟩

/-- A control that is a number has no words and no indices. -/
private theorem parse_eq_ok_iff_of_measured (hwords : words c = []) (hchoices : choices c = [])
    (h : measured c (trim text.toList) = some (parse c text)) :
    parse c text = .ok v ↔
      ByWord c text v ∨ (∀ v', ¬ByWord c text v') ∧ (ByNumber c text v ∨ ByIndex c text v) := by
  -- the parser is the trial of the units, which reads just the numbers
  have hnumber : parse c text = .ok v ↔ ByNumber c text v := by
    rw [byNumber_iff, ← measured_eq_some_iff, h, Option.some.injEq]
  have hword : ∀ v', ¬ByWord c text v' := by simp [ByWord, hwords]
  have hindex : ¬ByIndex c text v := by simp [ByIndex, hchoices]
  simp [hnumber, hword, hindex]

/-- What is read of a text: a word, or else a number with a unit or an index. -/
theorem parse_eq_ok_iff : parse c text = .ok v ↔
    ByWord c text v ∨ (∀ v', ¬ByWord c text v') ∧ (ByNumber c text v ∨ ByIndex c text v) := by
  -- the numbers are measured; a ratio has its words besides, and a choice has no units
  cases c with
  | threshold => exact parse_eq_ok_iff_of_measured rfl rfl (measured_level rfl _)
  | makeup => exact parse_eq_ok_iff_of_measured rfl rfl (measured_level (c := .makeup) rfl _)
  | knee => exact parse_eq_ok_iff_of_measured rfl rfl (measured_level (c := .knee) rfl _)
  | attack => exact parse_eq_ok_iff_of_measured rfl rfl (measured_time rfl _)
  | release => exact parse_eq_ok_iff_of_measured rfl rfl (measured_time (c := .release) rfl _)
  | mix => exact parse_eq_ok_iff_of_measured rfl rfl (measured_mix _)
  | ratio =>
    have hindex : ¬ByIndex .ratio text v := by simp [ByIndex, choices]
    simp only [byWord_ratio_iff, hindex, or_false]
    by_cases hword : lower (trim text.toList) ∈ limitWords
    · -- the word counts, whatever else it may be
      have hparse : parse .ratio text = .ok (ratio .limit) := by
        unfold parse parseRatio
        simp only [List.contains_iff_mem.mpr hword, if_true]
        rfl
      simp [hparse, hword, eq_comm]
    · have hno : limitWords.contains (lower (trim text.toList)) = false := by
        simpa using hword
      have hparse : parse .ratio text = .ok v ↔ ByNumber .ratio text v := by
        rw [byNumber_iff, ← measured_eq_some_iff, ← measured_lower, measured_ratio hno,
          Option.some.injEq]
        rfl
      simp [hparse, hword]
  | link =>
    have hnumber : ¬ByNumber .link text v := by simp [ByNumber, units]
    simp only [byWord_iff, byIndex_iff, hnumber, false_or, parse]
    exact isChoice_link.parseChoice_eq_ok_iff _ v
  | detection =>
    have hnumber : ¬ByNumber .detection text v := by simp [ByNumber, units]
    simp only [byWord_iff, byIndex_iff, hnumber, false_or, parse]
    exact isChoice_detection.parseChoice_eq_ok_iff _ v

/-- A text that is a word is no index. -/
theorem not_byIndex_of_byWord {v' : ControlValue} (h : ByWord c text v) : ¬ByIndex c text v' := by
  -- none of the words is a natural number
  have hall : (words c).all
      (fun m => (Decimal.boundedNatural? (2 ^ 64 - 1) m.1.toList).isNone) = true := by
    cases c <;> decide
  rw [byWord_iff] at h
  rw [byIndex_iff]
  rintro ⟨i, -, hnat⟩
  obtain ⟨word, hmem, heq⟩ := h
  have hnone := List.all_eq_true.mp hall _ hmem
  -- an index is its own lower case, so it would be the word itself
  rw [(Decimal.boundedNatural?_spec hnat).1] at heq
  rw [← heq, hnat] at hnone
  exact nomatch hnone

/-- Only a ratio has words beside units, and its words are those for the limit. -/
theorem ratio_of_byNumber_of_byWord {v' : ControlValue} (hnumber : ByNumber c text v)
    (hword : ByWord c text v') : c = .ratio ∧ v' = ratio .limit := by
  cases c with
  | ratio => exact ⟨rfl, (byWord_ratio_iff.mp hword).2⟩
  | link | detection => simp [ByNumber, units] at hnumber
  | threshold | attack | release | makeup | knee | mix => simp [ByWord, words] at hword

/-- What has one of the forms is read as that, unless it is a word for the limit. -/
theorem parse_of_spells (hlimit : ¬(c = .ratio ∧ ByWord c text (ratio .limit)))
    (h : Spells c text v) : parse c text = .ok v := by
  -- a word is read first; a number may be a word for the limit besides, an index may not
  rcases h with hword | hnumber | hindex
  · exact parse_eq_ok_iff.mpr (.inl hword)
  · refine parse_eq_ok_iff.mpr (.inr ⟨fun v' hword => ?_, .inl hnumber⟩)
    obtain ⟨hc, rfl⟩ := ratio_of_byNumber_of_byWord hnumber hword
    exact hlimit ⟨hc, hword⟩
  · exact parse_eq_ok_iff.mpr (.inr ⟨fun v' hword => not_byIndex_of_byWord hword hindex,
      .inr hindex⟩)

/-! ### Other texts -/

/-- Every error of a reading is that the text is no value of the control. -/
private def MisreadsOnly {α : Type} (c : Control) (x : Except Fault α) : Prop :=
  ∀ fault, x = .error fault → fault.misread? = some c

/-- Mapping the value leaves the errors. -/
private theorem MisreadsOnly.map {α β : Type} {x : Except Fault α} (h : MisreadsOnly c x)
    (f : α → β) : MisreadsOnly c (x.map f) := by
  intro fault hfault
  cases x with
  | error fault' => exact h fault (congrArg _ (Except.error.inj hfault))
  | ok a => exact nomatch hfault

/-- A number that is not read is reported for its control. -/
private theorem misreadsOnly_parseNumber (c : Control) (cs : List Char) :
    MisreadsOnly c (parseNumber c cs) := by
  intro fault h
  unfold parseNumber at h
  -- a literal is read, and anything else is no number
  split at h
  · exact nomatch h
  · obtain rfl := Except.error.inj h
    rfl

/-- A choice that is not read is reported for its control. -/
private theorem misreadsOnly_parseChoice {κ : Type} (ofName? : String → Option κ)
    (ofIndex : Nat → κ) (count : Nat) (c : Control) (cs : List Char) :
    MisreadsOnly c (parseChoice ofName? ofIndex count c cs) := by
  intro fault h
  unfold parseChoice at h
  split at h
  · exact nomatch h
  -- the text is no label: it may be an index, in range or not
  · split at h
    · split at h
      · exact nomatch h
      · obtain rfl := Except.error.inj h
        rfl
    · obtain rfl := Except.error.inj h
      rfl

/-- A level that is not read is reported for its control. -/
private theorem misreadsOnly_parseLevel (c : Control) (cs : List Char) :
    MisreadsOnly c (parseLevel c cs) := by
  unfold parseLevel
  split
  · exact (misreadsOnly_parseNumber c _).map _
  · exact misreadsOnly_parseNumber c _

/-- A time that is not read is reported for its control. -/
private theorem misreadsOnly_parseTime (c : Control) (cs : List Char) :
    MisreadsOnly c (parseTime c cs) := by
  unfold parseTime
  split
  · exact misreadsOnly_parseNumber c _
  · split
    · exact (misreadsOnly_parseNumber c _).map _
    · exact misreadsOnly_parseNumber c _

/-- A share that is not read is reported for its control. -/
private theorem misreadsOnly_parseShare (c : Control) (cs : List Char) :
    MisreadsOnly c (parseShare c cs) := by
  unfold parseShare
  split
  · exact (misreadsOnly_parseNumber c _).map _
  · exact misreadsOnly_parseNumber c _

/-- A ratio that is not read is reported for its control. -/
private theorem misreadsOnly_parseRatio (c : Control) (cs : List Char) :
    MisreadsOnly c (parseRatio c cs) := by
  unfold parseRatio
  simp only
  split
  · exact nofun
  · exact (misreadsOnly_parseNumber c _).map _

/-- A text that is not read is reported for the control, whatever is wrong with it. -/
theorem misread_of_parse_eq_error {fault : Fault} (h : parse c text = .error fault) :
    fault.misread? = some c := by
  simp only [parse] at h
  -- each control by the parser of its kind
  cases c with
  | threshold | makeup | knee => exact (misreadsOnly_parseLevel _ _).map _ fault h
  | attack | release => exact (misreadsOnly_parseTime _ _).map _ fault h
  | mix => exact (misreadsOnly_parseShare _ _).map _ fault h
  | ratio => exact (misreadsOnly_parseRatio _ _).map _ fault h
  | link | detection => exact (misreadsOnly_parseChoice _ _ _ _ _).map _ fault h

/-- Under the name of a control a text is read just when it is one of the control's words, or else a
number with one of its units or the index of one of its choices. A text that fits two of these forms
with different values is a word for the limit. Every other text is reported as no value of the
control. -/
theorem parseNamed_grammar {name : String} (hname : Control.named? name = some c) (text : String) :
    (∀ v, parseNamed name text = .ok v ↔
        ByWord c text v ∨ (∀ v', ¬ByWord c text v') ∧ (ByNumber c text v ∨ ByIndex c text v)) ∧
      (∀ v v', Spells c text v → Spells c text v' →
        v = v' ∨ c = .ratio ∧ ByWord c text (.ratio .limit)) ∧
      ((∀ v, ¬Spells c text v) →
        ∃ fault, parseNamed name text = .error fault ∧ fault.misread? = some c) := by
  rw [parseNamed_of_named hname]
  refine ⟨fun v => parse_eq_ok_iff, ?_, ?_⟩
  · intro v v' hv hv'
    -- unless the text is a word for the limit, each of its forms is what is read
    by_cases hlimit : c = .ratio ∧ ByWord c text (.ratio .limit)
    · exact .inr hlimit
    · have hread := (parse_of_spells hlimit hv).symm.trans (parse_of_spells hlimit hv')
      exact .inl (Except.ok.inj hread)
  · intro hnone
    -- what is read has one of the forms
    cases hparse : parse c text with
    | error fault => exact ⟨fault, rfl, misread_of_parse_eq_error hparse⟩
    | ok v =>
      rcases parse_eq_ok_iff.mp hparse with hword | ⟨-, hnumber | hindex⟩
      · exact absurd (.inl hword) (hnone v)
      · exact absurd (.inr (.inl hnumber)) (hnone v)
      · exact absurd (.inr (.inr hindex)) (hnone v)

/-- A word for the limit, which is also a number, and a time in milliseconds, which ends in the unit
of seconds too. -/
theorem parseNamed_grammar_inf_ms :
    (Control.named? "Ratio" = some .ratio ∧ parseNamed "Ratio" " Inf" = .ok (ratio .limit) ∧
        Spells .ratio " Inf" (ratio (.finite Scalar.infinity))) ∧
      Control.named? "ATTACK" = some .attack ∧ parseNamed "ATTACK" "20 ms " = .ok (number 20) := by
  have hratio : Control.named? "Ratio" = some .ratio := by decide +kernel
  have hattack : Control.named? "ATTACK" = some .attack := by decide +kernel
  have hnone : AllBlank [] := by simp [AllBlank]
  have hspace : AllBlank [' '] := by simp [AllBlank, Text.isBlank, Text.blankRanges]
  -- the word for the limit is a literal too
  have hword : ByWord .ratio " Inf" (ratio .limit) :=
    ⟨"inf", by simp [words], [' '], "Inf".toList, [], hspace, hnone, rfl, rfl⟩
  have hnumber : ByNumber .ratio " Inf" (ratio (.finite Scalar.infinity)) :=
    ⟨"", _, .tail _ (.head _), [' '], "Inf".toList, [], [], Scalar.infinity, hspace, hnone, hnone,
      rfl, by decide +kernel, rfl⟩
  -- the unit of milliseconds is tried before that of seconds
  have htime : ByNumber .attack "20 ms " (number 20) :=
    ⟨"ms", _, .head _, [], "20".toList, [' '], [' '], 20, hnone, hspace, hspace, rfl,
      by decide +kernel, rfl⟩
  have hnoword : ∀ v, ¬ByWord .attack "20 ms " v := by simp [ByWord, words]
  exact ⟨⟨hratio, ((parseNamed_grammar hratio " Inf").1 _).mpr (.inl hword), .inr (.inl hnumber)⟩,
    hattack, ((parseNamed_grammar hattack "20 ms ").1 _).mpr (.inr ⟨hnoword, .inl htime⟩)⟩

end ControlValue

end DynamicRange
