import DynamicRange.Command.Build
import DynamicRange.Proofs.Files
import DynamicRange.Proofs.Preset.Applied

/-!
# Overrides of a preset

An override is entered under the stable name of its control, where it takes the place of an entry
of that name. Entries of the preset under other names of the control stay, and entries are applied
in the order of their keys. So the last override of a control wins over all entries of the preset
but those under a name that sorts after the stable one, such as `makeup gain` after `makeup`.

## Key results

- `lastFor_override_of_forall`, `lastFor_override_of_lt`: the entry that is applied last
- `isStable_of_factory`, `not_id_lt_of_factory`: the factory presets have no such names
- `value_of_buildSettings`: the value of every control in the settings of a run
- `not_forall_last_override_wins`: an override that has no effect
-/

namespace DynamicRange.Command

open Preset (addresses lastFor lastFor_cons lastFor_eq_some_iff)

/-! ### Names and keys -/

/-- The stable name addresses what the key addresses. -/
theorem named?_canonicalKey (key : String) :
    Control.named? (canonicalKey key) = Control.named? key := by
  unfold canonicalKey
  cases h : Control.named? key with
  | none => exact h
  | some c => exact c.named?_id

/-- An override is put under a key that addresses the same controls as its own. -/
theorem addresses_canonicalKey (c : Control) (o : String × String) (text : String) :
    addresses c (canonicalKey o.1, text) = addresses c o := by
  simp only [addresses, named?_canonicalKey]

/-- An override of a control is put under the stable name of the control. -/
theorem canonicalKey_of_addresses {c : Control} {o : String × String}
    (h : addresses c o = true) : canonicalKey o.1 = c.id := by
  have hname : Control.named? o.1 = some c := of_decide_eq_true h
  rw [canonicalKey, hname]
  rfl

/-! ### Entries after the overrides -/

/-- The entries with overrides put in one after another. -/
private def overridden (params : Entries) (os : List (String × String)) : Entries :=
  os.foldl (fun params o => params.insert (canonicalKey o.1) o.2) params

/-- Overrides of other controls do not change what a control has. -/
private theorem filter_overridden {c : Control} {os : List (String × String)}
    (h : lastFor c os = none) (params : Entries) :
    (overridden params os).toList.filter (addresses c) = params.toList.filter (addresses c) := by
  induction os generalizing params with
  | nil => rfl
  | cons o os ih =>
    rw [lastFor_cons, Option.or_eq_none_iff] at h
    -- the first override is not of this control, so that its key is not either
    have hother : ∀ text, addresses c (canonicalKey o.1, text) = false := by
      intro text
      rw [addresses_canonicalKey]
      cases ho : addresses c o with
      | false => rfl
      | true => exact nomatch (if_pos ho).symm.trans h.2
    rw [overridden, List.foldl_cons, ← overridden, ih h.1]
    -- what is found for this control is the same before and after the insertion
    exact filter_insertEntry_of_neg _ hother

/-- Of an overridden control there are the last override and the entries under other names. -/
private theorem mem_overridden {c : Control} {os : List (String × String)} {o : String × String}
    (h : lastFor c os = some o) (params : Entries) {entry : String × String}
    (hentry : addresses c entry = true) :
    entry ∈ (overridden params os).toList ↔
      entry = (c.id, o.2) ∨ entry ∈ params.toList ∧ entry.1 ≠ c.id := by
  induction os generalizing params with
  | nil => exact nomatch h
  -- the induction is on the overrides in their order; the first of them is put in first
  | cons o' os ih =>
    rw [lastFor_cons] at h
    rw [overridden, List.foldl_cons, ← overridden]
    generalize hkey : canonicalKey o'.1 = key
    -- an insertion puts its entry in and takes out what was under its key
    have hinsert : entry ∈ (params.insert key o'.2).toList ↔
        entry = (key, o'.2) ∨ entry ∈ params.toList ∧ entry.1 ≠ key :=
      mem_insertEntry_iff params.ascending
    cases hlast : lastFor c os with
    | some o'' =>
      -- a later override of the control counts; this one is gone or is of another control
      rw [hlast, Option.some_or] at h
      obtain rfl := Option.some.inj h
      have hown : addresses c o' = true → key = c.id := fun ho' =>
        hkey.symm.trans (canonicalKey_of_addresses ho')
      have haddresses : entry.1 = key → addresses c o' = true := by
        intro heq
        rw [← addresses_canonicalKey c o' entry.2, hkey, ← heq]
        exact hentry
      rw [ih hlast, hinsert]
      refine or_congr_right ⟨?_, ?_⟩
      -- the entry of the first override is under the stable name, and is not counted again
      · rintro ⟨heq | ⟨hmem, -⟩, hne⟩
        · have hsame : entry.1 = key := congrArg Prod.fst heq
          exact absurd (hsame.trans (hown (haddresses hsame))) hne
        · exact ⟨hmem, hne⟩
      · rintro ⟨hmem, hne⟩
        refine ⟨.inr ⟨hmem, fun heq => hne ?_⟩, hne⟩
        exact heq.trans (hown (haddresses heq))
    | none =>
      rw [hlast, Option.none_or] at h
      split at h
      next ho' =>
        -- the first override is the last one of the control: it stays as it was put in
        obtain rfl := Option.some.inj h
        have hid : key = c.id := hkey.symm.trans (canonicalKey_of_addresses ho')
        subst hid
        rw [← hinsert]
        have hsame := filter_overridden hlast (params.insert c.id o'.2)
        have hiff := congrArg (entry ∈ ·) hsame
        simpa only [List.mem_filter, hentry, and_true, eq_iff_iff] using hiff
      next => exact nomatch h

/-- The last override is the last entry unless a name of the control sorts after the stable one. -/
theorem lastFor_override_of_forall {p : Preset} {c : Control} {os : List (String × String)}
    {o : String × String} (h : lastFor c os = some o)
    (hkeys : ∀ entry ∈ p.params.toList, addresses c entry = true → ¬c.id < entry.1) :
    lastFor c (override p os).params.toList = some (c.id, o.2) := by
  -- the override itself is among the entries and addresses the control
  have hid : addresses c (c.id, o.2) = true := decide_eq_true c.named?_id
  refine lastFor_eq_some_iff.mpr ⟨⟨(mem_overridden h p.params hid).mpr (.inl rfl), hid⟩, ?_⟩
  intro other hmem hother
  rcases (mem_overridden h p.params hother).mp hmem with rfl | ⟨hmem, -⟩
  -- an entry under the stable name is not above itself
  · exact String.lt_irrefl _
  · exact hkeys other hmem hother

/-- An entry of the preset that sorts after the stable name stays the last one. -/
theorem lastFor_override_of_lt {p : Preset} {c : Control} {os : List (String × String)}
    {o entry : String × String} (h : lastFor c os = some o)
    (hentry : lastFor c p.params.toList = some entry) (hlt : c.id < entry.1) :
    lastFor c (override p os).params.toList = some entry := by
  obtain ⟨⟨hmem, haddresses⟩, hlast⟩ := lastFor_eq_some_iff.mp hentry
  have hne : entry.1 ≠ c.id := fun heq => String.lt_irrefl _ (heq ▸ hlt)
  refine lastFor_eq_some_iff.mpr
    ⟨⟨(mem_overridden h p.params haddresses).mpr (.inr ⟨hmem, hne⟩), haddresses⟩, ?_⟩
  -- no other entry of the control sorts after this one
  intro other hmem' hother
  rcases (mem_overridden h p.params hother).mp hmem' with rfl | ⟨hmem', -⟩
  · -- the override is under the stable name, which is below the entry's
    exact fun hlt' => String.lt_irrefl _ (String.lt_trans hlt hlt')
  · exact hlast other hmem' hother

/-- Without an override of it, a control is resolved as in the preset alone. -/
theorem value_override_of_none {p : Preset} {c : Control} {os : List (String × String)}
    (h : lastFor c os = none) :
    (override p os).applied.1.value c = p.applied.1.value c := by
  -- the value depends on the entries of the control alone, and these are the same
  have hfilter := filter_overridden h p.params
  rw [Preset.applied, Preset.applied, Preset.value_foldl_applyEntry,
    Preset.value_foldl_applyEntry]
  exact congrArg (List.foldl _ _) hfilter

/-! ### The settings of a run -/

/-- The preset that the overrides of a run go on top of. -/
def basePreset (t : FileTree) (source : Source) : Except Failure Preset :=
  match source.preset with
  | some name => loadPreset t name
  | none => .ok default

/-- The settings of a run are those of its preset with the overrides on top. -/
theorem buildSettings_eq_ok_iff {t : FileTree} {source : Source} {s : Settings} :
    buildSettings t source = .ok s ↔
      ∃ p, basePreset t source = .ok p ∧ (override p source.overrides).settings = .ok s := by
  obtain ⟨preset, overrides⟩ := source
  unfold buildSettings basePreset
  -- with and without a preset it is the same sequence of steps
  cases preset <;> simp only [Result.bind_eq_ok_iff, Result.mapError_eq_ok_iff]

/-- A factory preset has every control under its stable name, or not at all. -/
theorem id_of_factory {name : String} {p : Preset} (h : Preset.factory? name = some p) :
    ∀ entry ∈ p.params.toList, ∃ c : Control, entry.1 = c.id := by
  -- the factory presets are few, and the keys of all of them are looked at
  have hall : ∀ q ∈ Preset.factory.map Prod.snd, ∀ entry ∈ q.params.toList,
      entry.1 ∈ Control.all.map Control.id := by
    decide
  -- a preset is found by its identifier, or else by its name for display
  have hmem : p ∈ Preset.factory.map Prod.snd := by
    rw [Preset.factory?] at h
    split at h
    next found hfind =>
      obtain rfl := Option.some.inj h
      exact List.mem_map_of_mem (List.mem_of_find?_eq_some hfind)
    next => exact List.mem_of_find?_eq_some h
  intro entry hentry
  obtain ⟨c, -, hc⟩ := List.mem_map.mp (hall p hmem entry hentry)
  exact ⟨c, hc.symm⟩

/-- A preset that gives its controls under their stable names. -/
def IsStable (p : Preset) : Prop :=
  ∀ entry ∈ p.params.toList, ∀ c, addresses c entry = true → entry.1 = c.id

/-- A factory preset is one of stable names. -/
theorem isStable_of_factory {name : String} {p : Preset} (h : Preset.factory? name = some p) :
    IsStable p := by
  intro entry hentry c haddresses
  obtain ⟨c', hc'⟩ := id_of_factory h entry hentry
  have hname : Control.named? entry.1 = some c := of_decide_eq_true haddresses
  rw [hc', Control.named?_id] at hname
  rw [hc', Option.some.inj hname]

/-- In a factory preset no entry of a control sorts after the stable name. -/
theorem not_id_lt_of_factory {name : String} {p : Preset} (h : Preset.factory? name = some p)
    {c : Control} {entry : String × String} (hentry : entry ∈ p.params.toList)
    (haddresses : addresses c entry = true) : ¬c.id < entry.1 := by
  rw [isStable_of_factory h entry hentry c haddresses]
  exact String.lt_irrefl _

/-! ### A name that sorts after the stable one -/

/-- A document that gives the make-up gain under its name for display. -/
private def makeupGainDocument : String := "name = \"P\"\n\n[params]\n\"makeup gain\" = \"4\"\n"

/-- The preset of the document. -/
private def makeupGainPreset : Preset where
  name := "P"
  params := .ofList [("makeup gain", "4")]

/-- A working folder with the document. -/
private def makeupGainTree : FileTree where
  home := []
  nodes := [(["p.toml"], .file makeupGainDocument.toUTF8.toList)]

/-- A run with the preset and an override of the make-up gain. -/
private def makeupGainSource : Source := ⟨some "p.toml", [("makeup", "8")]⟩

/-- The document is found under its name. -/
private theorem find_makeupGainTree :
    makeupGainTree.find "p.toml" = .ok (.file makeupGainDocument.toUTF8.toList) :=
  FileTree.find_ofDocument makeupGainDocument

/-- The preset of the run is read from the document. -/
private theorem basePreset_makeupGain :
    basePreset makeupGainTree makeupGainSource = .ok makeupGainPreset := by
  refine Result.toOption_eq_some_iff.mp ?_
  unfold basePreset makeupGainSource loadPreset Preset.find FileTree.isFile Preset.load
    FileTree.readText FileTree.readBytes
  simp only [find_makeupGainTree]
  decide +kernel

/-- The settings of the run are made, and its make-up gain is four. -/
private theorem exists_buildSettings_makeupGain :
    ∃ s, buildSettings makeupGainTree makeupGainSource = .ok s ∧ s.makeup = 4 := by
  have hmakeup : (override makeupGainPreset makeupGainSource.overrides).settings.toOption.map
      Settings.makeup = some 4 := by
    decide
  obtain ⟨s, hs, hvalue⟩ := Option.map_eq_some_iff.mp hmakeup
  have hsettings := Result.toOption_eq_some_iff.mp hs
  exact ⟨s, buildSettings_eq_ok_iff.mpr ⟨_, basePreset_makeupGain, hsettings⟩, hvalue⟩

/-- A run has every control that is not overridden as its preset has it. An overridden control has
the value in its last override, unless the preset gives the control under a name that sorts after
the stable one: then it has the value that is given under the last of these names. The factory
presets give no control under such a name. -/
theorem value_of_buildSettings {t : FileTree} {source : Source} {s : Settings}
    (h : buildSettings t source = .ok s) :
    ∃ p, basePreset t source = .ok p ∧ ∀ c : Control,
      (lastFor c source.overrides = none → s.value c = p.applied.1.value c) ∧
      ∀ o, lastFor c source.overrides = some o →
        ((∀ entry ∈ p.params.toList, addresses c entry = true → ¬c.id < entry.1) →
          ControlValue.parse c o.2 = .ok (s.value c)) ∧
        (∀ entry, lastFor c p.params.toList = some entry → c.id < entry.1 →
          ControlValue.parse c entry.2 = .ok (s.value c)) ∧
        (∀ name, Preset.factory? name = some p →
          ControlValue.parse c o.2 = .ok (s.value c)) := by
  obtain ⟨p, hbase, hsettings⟩ := buildSettings_eq_ok_iff.mp h
  refine ⟨p, hbase, fun c => ⟨fun hnone => ?_, fun o ho => ?_⟩⟩
  · obtain ⟨-, -, rfl⟩ := (Preset.settings_eq_ok_iff _ s).mp hsettings
    exact value_override_of_none hnone
  -- the override wins as soon as no other name of the control sorts after the stable one
  · have hwins (hkeys : ∀ entry ∈ p.params.toList, addresses c entry = true → ¬c.id < entry.1) :
        ControlValue.parse c o.2 = .ok (s.value c) := by
      have hvalue := Preset.value_of_last hsettings (lastFor_override_of_forall ho hkeys)
      exact hvalue
    refine ⟨hwins, fun entry hentry hlt => ?_, fun name hname => hwins fun entry => ?_⟩
    · exact Preset.value_of_last hsettings (lastFor_override_of_lt ho hentry hlt)
    · exact not_id_lt_of_factory hname

/-- A preset that gives the make-up gain as `makeup gain` keeps it against an override. -/
theorem value_of_buildSettings_makeup_gain :
    ∃ s, buildSettings makeupGainTree makeupGainSource = .ok s ∧
      lastFor .makeup makeupGainSource.overrides = some ("makeup", "8") ∧
      ControlValue.parse .makeup "4" = .ok (s.value .makeup) := by
  obtain ⟨s, hs, -⟩ := exists_buildSettings_makeupGain
  obtain ⟨p, hbase, hvalue⟩ := value_of_buildSettings hs
  obtain rfl := Except.ok.inj (basePreset_makeupGain.symm.trans hbase)
  -- the overrides of the run have one for the make-up gain
  have hoverride : lastFor .makeup makeupGainSource.overrides = some ("makeup", "8") := by
    decide +kernel
  -- the preset has it under a name that sorts after `makeup`
  have hentry : lastFor .makeup makeupGainPreset.params.toList = some ("makeup gain", "4") := by
    decide +kernel
  have hlast := ((hvalue .makeup).2 _ hoverride).2.1 _ hentry (by decide +kernel)
  exact ⟨s, hs, hoverride, hlast⟩

/-- The last override of a control does not always win over the preset. -/
theorem not_forall_last_override_wins :
    ¬∀ (t : FileTree) (source : Source) (s : Settings), buildSettings t source = .ok s →
      ∀ (c : Control) (o : String × String), lastFor c source.overrides = some o →
        ControlValue.parse c o.2 = .ok (s.value c) := by
  intro hwins
  obtain ⟨s, hs, hvalue⟩ := exists_buildSettings_makeupGain
  have hoverride : lastFor .makeup makeupGainSource.overrides = some ("makeup", "8") := by
    decide +kernel
  have hparse : (ControlValue.parseLevel .makeup (Text.trim "8".toList)).map ControlValue.number =
      .ok (ControlValue.number s.makeup) := hwins _ _ _ hs _ _ hoverride
  -- the override would make the gain eight, and it is four
  obtain ⟨x, hx, hnumber⟩ := Result.map_eq_ok_iff.mp hparse
  obtain rfl : x = 4 := (ControlValue.number.inj hnumber).trans hvalue
  exact absurd (Result.toOption_eq_some_iff.mpr hx) (by decide +kernel)

end DynamicRange.Command
