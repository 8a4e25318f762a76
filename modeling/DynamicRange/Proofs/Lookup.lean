import DynamicRange.Compressor
import DynamicRange.Proofs.Command.Override
import DynamicRange.Proofs.Settings.Named

/-!
# Parameters by name

A processor is searched from the first parameter on, so a name that several parameters have means
the first of them. No two controls of the compressor share a name, in whatever case it is written.
So the order of the search does not matter for them, and a name that is looked up in the settings,
in an engine or in a compressor means the same control everywhere.

## Key results

- `findParameter?_eq_some_iff`, `findParameter?_eq_none_iff`: any processor
- `Control.eq_of_goesBy`: names of controls are told apart
- `Control.search?_eq_some_iff`: the only control that has a name
- `lookup_agrees`: all searches
-/

namespace DynamicRange

open Parameter (Descriptor)

/-! ### Names -/

namespace Text

/-- Names are the same up to case if their lower cases are the same. -/
theorem sameName_iff {s t : String} : sameName s t = true ↔ lower s.toList = lower t.toList :=
  beq_iff_eq

/-- Two names that are the same as a third up to case are the same up to case. -/
theorem sameName_of_common {s t name : String} (hs : sameName s name = true)
    (ht : sameName t name = true) : sameName s t = true :=
  sameName_iff.mpr ((sameName_iff.mp hs).trans (sameName_iff.mp ht).symm)

end Text

namespace Parameter.Descriptor

variable {d : Descriptor} {name : String}

/-- The names of a parameter. -/
def names (d : Descriptor) : List String := [d.name, d.shortName, d.id]

/-- Whether a parameter has a name, up to the case of ASCII letters. -/
def GoesBy (d : Descriptor) (name : String) : Prop :=
  ∃ own ∈ d.names, Text.sameName own name = true

/-- A parameter answers to the names it goes by. -/
theorem answersTo_iff : d.answersTo name = true ↔ d.GoesBy name := by
  simp [answersTo, GoesBy, names, or_assoc]

end Parameter.Descriptor

/-! ### Any processor -/

section Search

variable {σ : Type} [Parametric σ] {s : σ} {name : String} {i : ℕ}

/-- Whether the parameter with an index has a name. -/
def HasName (s : σ) (i : ℕ) (name : String) : Prop :=
  ∃ d, Parametric.descriptor? s i = some d ∧ d.GoesBy name

/-- The test of a search, as a statement about names. -/
private theorem any_answersTo_iff :
    (Parametric.descriptor? s i).any (·.answersTo name) = true ↔ HasName s i name := by
  simp only [Option.any_eq_true, Parameter.Descriptor.answersTo_iff, HasName]

/-- The search gives the least index of a parameter that has the name. -/
theorem findParameter?_eq_some_iff :
    findParameter? s name = some i ↔
      (i < Parametric.parameterCount s ∧ HasName s i name) ∧ ∀ j < i, ¬HasName s j name := by
  rw [findParameter?, List.find?_range_eq_some, List.mem_range]
  simp only [Bool.not_eq_true', ← Bool.not_eq_true, any_answersTo_iff]
  tauto

/-- It gives none only if there is none. -/
theorem findParameter?_eq_none_iff :
    findParameter? s name = none ↔ ∀ i < Parametric.parameterCount s, ¬HasName s i name := by
  rw [findParameter?, List.find?_range_eq_none]
  simp only [Bool.not_eq_true', ← Bool.not_eq_true, any_answersTo_iff]

end Search

/-! ### The controls -/

namespace Control

variable {c c' : Control} {name : String} {i : ℕ}

/-- No two controls have names that are the same up to case; there are few enough to look at all. -/
private theorem eq_of_sameName : ∀ c ∈ all, ∀ c' ∈ all, ∀ own ∈ c.descriptor.names,
    ∀ own' ∈ c'.descriptor.names, Text.sameName own own' = true → c = c' := by
  decide

/-- No two controls share a name. -/
theorem eq_of_goesBy (h : c.descriptor.GoesBy name) (h' : c'.descriptor.GoesBy name) : c = c' := by
  obtain ⟨own, hown, hname⟩ := h
  obtain ⟨own', hown', hname'⟩ := h'
  exact eq_of_sameName c c.mem_all c' c'.mem_all own hown own' hown'
    (Text.sameName_of_common hname hname')

/-- The control of a name is the only one that has it. -/
theorem named?_eq_some_iff : named? name = some c ↔ c.descriptor.GoesBy (Text.trimmed name) := by
  rw [named?]
  constructor
  · intro h
    have hanswers := List.find?_some h
    exact Parameter.Descriptor.answersTo_iff.mp hanswers
  -- the search finds some control that has the name, and there is no other one
  · intro h
    cases hfound : all.find? fun c => c.descriptor.answersTo (Text.trimmed name) with
    | none =>
      have hnone := List.find?_eq_none.mp hfound c c.mem_all
      exact absurd (Parameter.Descriptor.answersTo_iff.mpr h) hnone
    | some c' =>
      have hanswers := List.find?_some hfound
      rw [eq_of_goesBy (Parameter.Descriptor.answersTo_iff.mp hanswers) h]

/-- The number of a name is the only one whose description has it. -/
theorem search?_eq_some_iff :
    search? name = some i ↔ ∃ d, descriptor? i = some d ∧ d.GoesBy (Text.trimmed name) := by
  rw [search?_eq, Option.map_eq_some_iff]
  constructor
  -- the control of the number, and its description
  · rintro ⟨c, hc, rfl⟩
    refine ⟨c.descriptor, ?_, named?_eq_some_iff.mp hc⟩
    rw [descriptor?, ofIndex?_index, Option.map_some]
  · rintro ⟨d, hd, hname⟩
    obtain ⟨c, hc, rfl⟩ := Option.map_eq_some_iff.mp hd
    exact ⟨c, named?_eq_some_iff.mpr hname, (eq_index_of_ofIndex? hc).symm⟩

/-- The key that an override is entered under is the stable name of the control with the number. -/
theorem getElem?_id_of_search? (h : search? name = some i) :
    (all.map id)[i]? = some (Command.canonicalKey name) := by
  rw [search?_eq] at h
  obtain ⟨c, hc, rfl⟩ := Option.map_eq_some_iff.mp h
  have hnumber : all[c.index]? = some c := ofIndex?_index c
  rw [List.getElem?_map, hnumber, Command.canonicalKey, hc]
  rfl

end Control

/-- A processor with the controls of the settings is searched as they are. -/
private theorem findParameter?_eq_search? {σ : Type} [Parametric σ] {x : σ}
    (hcount : Parametric.parameterCount x = Control.all.length)
    (hdescriptor : Parametric.descriptor? x = Control.descriptor?) (name : String) :
    findParameter? x (Text.trimmed name) = Control.search? name := by
  rw [findParameter?, hcount, hdescriptor, Control.search?]
  simp only [Control.sameName_or_eq]

/-- A name is looked up in the settings as it is, but for blanks around it, in an engine and in
both compressors, whatever state they are in. What is found is the only number whose description has
the name. The stable name in the place of that number leads to the same number, and so does the key
that an override of the name is entered under. In any processor the least index is found whose
description has the name, and none only if there is none. -/
theorem lookup_agrees :
    (∀ name,
      (∀ e : Engine, findParameter? e (Text.trimmed name) = Control.search? name) ∧
      (∀ c : Compressor, findParameter? c (Text.trimmed name) = Control.search? name) ∧
      (∀ c : SidechainCompressor, findParameter? c (Text.trimmed name) = Control.search? name) ∧
      Control.search? name = (Control.named? name).map Control.index ∧
      (∀ i, Control.search? name = some i ↔
        ∃ d, Control.descriptor? i = some d ∧ d.GoesBy (Text.trimmed name)) ∧
      (∀ i, Control.search? name = some i →
        ∃ id, (Control.all.map Control.id)[i]? = some id ∧ Control.search? id = some i) ∧
      Control.search? (Command.canonicalKey name) = Control.search? name) ∧
    ∀ (σ : Type) [Parametric σ] (x : σ) (name : String),
      (∀ i, findParameter? x name = some i ↔
        (i < Parametric.parameterCount x ∧ HasName x i name) ∧ ∀ j < i, ¬HasName x j name) ∧
      (findParameter? x name = none ↔
        ∀ i < Parametric.parameterCount x, ¬HasName x i name) := by
  refine ⟨fun name => ?_, fun σ _ x name =>
    ⟨fun i => findParameter?_eq_some_iff, findParameter?_eq_none_iff⟩⟩
  -- the stable name of a control leads to the control itself
  have hkey : Control.search? (Command.canonicalKey name) = Control.search? name := by
    rw [Control.search?_eq, Control.search?_eq, Command.named?_canonicalKey]
  refine ⟨fun e => findParameter?_eq_search? rfl rfl name,
    fun c => findParameter?_eq_search? rfl rfl name,
    fun c => findParameter?_eq_search? rfl rfl name, Control.search?_eq name,
    fun i => Control.search?_eq_some_iff, fun i hi => ?_, hkey⟩
  -- the key of the name is the stable name in the place of the number
  exact ⟨_, Control.getElem?_id_of_search? hi, hkey.trans hi⟩

/-- Two parameters that share a name are told apart by their order only. -/
example : findParameter? (Bank.ofDescriptors [.multiplier "Low Gain" "Gain" 0 1 1,
    .multiplier "High Gain" "gain" 0 1 1]) "GAIN" = some 0 := by decide +kernel

end DynamicRange
