import DynamicRange.Proofs.Preset.Applied
import DynamicRange.Proofs.Preset.Document
import DynamicRange.Proofs.Settings.Text

/-!
# Resolved presets

A preset that resolves can be exported with all nine controls spelled out under their stable names.
Each of them has one entry, whose text reads back to the value of the control, so the exported
preset resolves to the same settings, and exporting it once more changes nothing.

## Key results

- `mem_params_ofSettings`, `keys_ofSettings`: the entries that spell out settings
- `settings_ofSettings`: they give the settings back
- `isWritable_resolved`: only the name and the description can keep an export from being written
- `exists_read?_write_resolved`: an export reads back to a preset of the same settings
-/

namespace DynamicRange.Preset

variable {name : String} {s : Settings}

/-! ### The entries -/

/-- The entries of a preset made of settings: each control under its stable name, with its text. -/
theorem mem_params_ofSettings {entry : String × String} :
    entry ∈ (ofSettings name s).params.toList ↔ ∃ c : Control, entry = (c.id, s.format c) := by
  -- no two controls have the same stable name, so that no entry replaces another
  have hids : Control.all.Pairwise (·.id ≠ ·.id) := by decide
  have hdistinct : (Control.all.map fun c => (c.id, s.format c)).Pairwise (·.1 ≠ ·.1) :=
    List.pairwise_map.mpr hids
  rw [ofSettings, Entries.mem_ofList_iff hdistinct, List.mem_map]
  constructor
  · rintro ⟨c, -, rfl⟩
    exact ⟨c, rfl⟩
  · rintro ⟨c, rfl⟩
    exact ⟨c, c.mem_all, rfl⟩

/-- There is one entry for each control. -/
theorem keys_ofSettings :
    ((ofSettings name s).params.toList.map Prod.fst).Perm (Control.all.map Control.id) := by
  have hkeys : ((ofSettings name s).params.toList.map Prod.fst).Nodup :=
    List.pairwise_map.mpr ((ofSettings name s).params.ascending.imp fun hlt => Std.ne_of_lt hlt)
  have hids : (Control.all.map Control.id).Nodup := by decide
  -- neither side has a key twice, so it is enough that they have the same keys
  refine (List.perm_ext_iff_of_nodup hkeys hids).mpr fun key => ?_
  simp only [List.mem_map, mem_params_ofSettings]
  constructor
  · rintro ⟨entry, ⟨c, rfl⟩, rfl⟩
    exact ⟨c, c.mem_all, rfl⟩
  · rintro ⟨c, -, rfl⟩
    exact ⟨_, ⟨c, rfl⟩, rfl⟩

section Fields

variable (p : Preset) (s : Settings)

/-- The resolved preset has the name of the preset. -/
theorem name_resolved : (p.resolved s).name = p.name := by
  simp only [resolved, ofSettings]

/-- The resolved preset has the description of the preset. -/
theorem description_resolved : (p.resolved s).description = p.description := by
  simp only [resolved]

/-- The resolved preset has the mode of the preset. -/
theorem mode_resolved : (p.resolved s).mode = p.mode := by
  simp only [resolved]

/-- The entries of the resolved preset are those of its settings. -/
theorem params_resolved : (p.resolved s).params = (ofSettings p.name s).params := by
  simp only [resolved]

/-- Resolving again with the same settings changes nothing. -/
theorem resolved_resolved : (p.resolved s).resolved s = p.resolved s := by
  simp only [resolved, ofSettings]

end Fields

/-! ### The settings -/

/-- The entry of a control is the only one that addresses it. -/
theorem lastFor_ofSettings (c : Control) :
    lastFor c (ofSettings name s).params.toList = some (c.id, s.format c) := by
  refine lastFor_eq_some_iff.mpr
    ⟨⟨mem_params_ofSettings.mpr ⟨c, rfl⟩, decide_eq_true c.named?_id⟩, ?_⟩
  intro other hmem haddresses
  -- the stable name of one control addresses no other
  obtain ⟨c', rfl⟩ := mem_params_ofSettings.mp hmem
  have hname : Control.named? c'.id = some c := of_decide_eq_true haddresses
  obtain rfl := Option.some.inj (c'.named?_id.symm.trans hname)
  exact String.lt_irrefl _

/-- Valid settings are given back by their texts. -/
theorem settings_ofSettings (hs : s.Valid) : (ofSettings name s).settings = .ok s := by
  rw [settings_eq_ok_iff]
  refine ⟨?_, s.faults_eq_nil_iff.mpr hs, ?_⟩
  · -- every text parses for the control of its key
    refine List.filterMap_eq_nil_iff.mpr fun entry hentry => ?_
    obtain ⟨c, rfl⟩ := mem_params_ofSettings.mp hentry
    rw [faultOf?, ControlValue.parseNamed_of_named c.named?_id, Settings.parse_format hs c]
    rfl
  · -- the entry of a control is the last one that addresses it
    refine Settings.eq_of_value fun c => ?_
    exact value_applied_of_last (lastFor_ofSettings c) (Settings.parse_format hs c)

/-- A preset is resolved by its entries alone. -/
theorem settings_congr {p q : Preset} (h : p.params = q.params) : p.settings = q.settings := by
  unfold settings applied
  rw [h]

/-- The resolved preset resolves to its settings. -/
theorem settings_resolved (p : Preset) (hs : s.Valid) : (p.resolved s).settings = .ok s := by
  rw [settings_congr (params_resolved p s)]
  exact settings_ofSettings hs

/-- Settings that a preset resolves to are valid. -/
theorem valid_of_settings {p : Preset} (h : p.settings = .ok s) : s.Valid :=
  s.faults_eq_nil_iff.mp ((p.settings_eq_ok_iff s).mp h).2.1

/-! ### The document -/

/-- No text of a control has quotes. -/
theorem isWritable_format (hs : s.Valid) (c : Control) :
    Toml.isWritable (s.format c).toList = true := by
  -- a text is a number, or one of a few words
  rcases s.format_cases hs c with ⟨x, hx, hformat⟩ | hword
  · rw [hformat]
    have hnumerals (q : Char) (hq : q ∉ Decimal.numerals) : q ∉ (Decimal.text x).toList :=
      fun hmem => hq (Decimal.mem_numerals_of_mem_text hx hmem)
    exact Toml.isWritable_of_not_mem (hnumerals _ (by decide)) (hnumerals _ (by decide))
  · have hall : ∀ word ∈ "limit" :: LinkMode.labels ++ Detection.labels,
        Toml.isWritable word.toList = true := by
      decide
    exact hall _ hword

/-- Only the name and the description can keep an export from being written. -/
theorem isWritable_resolved (p : Preset) (hs : s.Valid) :
    (p.resolved s).isWritable =
      (p.name :: p.description.toList).all fun text => Toml.isWritable text.toList := by
  -- the texts of the controls never keep a preset from being written
  have htexts : ((p.resolved s).params.toList.map Prod.snd).all
      (fun text => Toml.isWritable text.toList) = true := by
    rw [List.all_map, List.all_eq_true]
    intro entry hentry
    rw [params_resolved] at hentry
    obtain ⟨c, rfl⟩ := mem_params_ofSettings.mp hentry
    exact isWritable_format hs c
  unfold isWritable
  rw [List.all_append, htexts, Bool.and_true, name_resolved, description_resolved]

/-- An export reads back to a preset of the same name, description and mode, which has one entry
for each control and resolves to the same settings, and exporting it again gives the same preset.
The texts of the controls can always be written. Valid settings need no preset that they come
from. -/
theorem exists_read?_write_resolved :
    (∀ (p : Preset) (s : Settings), p.settings = .ok s →
      (p.resolved s).write? =
        (if (p.name :: p.description.toList).all fun text => Toml.isWritable text.toList then
          some (p.resolved s).write
        else none) ∧
      ∃ q, read? (p.resolved s).write = some q ∧
        q.name = p.name ∧ q.description = p.description ∧ q.mode = p.mode ∧
        (q.params.toList.map Prod.fst).Perm (Control.all.map Control.id) ∧
        q.settings = .ok s ∧ q.resolved s = q) ∧
    ∀ (name : String) (s : Settings), s.validate = .ok () →
      (ofSettings name s).settings = .ok s := by
  refine ⟨fun p s h => ?_, fun name s h => settings_ofSettings (s.validate_eq_ok_iff.mp h)⟩
  have hs := valid_of_settings h
  have hkeys : ((p.resolved s).params.toList.map Prod.fst).Perm (Control.all.map Control.id) := by
    rw [params_resolved]
    exact keys_ofSettings
  refine ⟨?_, p.resolved s, read?_write _, p.name_resolved s, p.description_resolved s,
    -- the first part says when it can be written; the others are read off the resolved preset
    p.mode_resolved s, hkeys, settings_resolved p hs, p.resolved_resolved s⟩
  rw [write?, isWritable_resolved p hs]

/-- A preset with a key and a text that an export spells otherwise, and quotes in its
description. -/
private def halfMix : Preset where
  name := "Half"
  description := some "half \"dry\""
  mode := .sidechain
  params := .ofList [("Makeup Gain", "4"), ("mix", "50 %")]

/-- The preset is exported, and reads back; so do the settings of a new compressor. -/
theorem exists_read?_write_resolved_half_mix :
    (∃ s, halfMix.settings = .ok s ∧ s.mix = 0.5 ∧
      (halfMix.resolved s).write? = some (halfMix.resolved s).write ∧
      ∃ q, read? (halfMix.resolved s).write = some q ∧ q.name = "Half" ∧ q.mode = .sidechain ∧
        q.settings = .ok s ∧ q.resolved s = q) ∧
    (ofSettings "Default" {}).settings = .ok {} := by
  -- the settings of the preset, of which the mix is one half
  have hmix : halfMix.settings.toOption.map Settings.mix = some 0.5 := by decide +kernel
  obtain ⟨s, hs, hvalue⟩ := Option.map_eq_some_iff.mp hmix
  have hsettings := Result.toOption_eq_some_iff.mp hs
  obtain ⟨hwrite, q, hread, hname, -, hmode, -, hresolves, hagain⟩ :=
    exists_read?_write_resolved.1 halfMix s hsettings
  have hwritable : ((halfMix.name :: halfMix.description.toList).all fun text =>
      Toml.isWritable text.toList) = true := by
    decide
  rw [if_pos hwritable] at hwrite
  exact ⟨⟨s, hsettings, hvalue, hwrite, q, hread, hname, hmode, hresolves, hagain⟩,
    exists_read?_write_resolved.2 "Default" {} rfl⟩

end DynamicRange.Preset
