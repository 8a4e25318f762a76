import DynamicRange.Preset.Basic
import DynamicRange.Proofs.Preset.Entries
import DynamicRange.Proofs.Settings.Value

/-!
# Resolving a preset

A preset is resolved by applying its entries one after another to the default settings. An entry
changes the control that its key addresses and no other, and whether it has a fault does not depend
on the settings. So the value of a control is that of the last entry that addresses it, and the
faults are those of the entries, each taken by itself.

## Key results

- `value_foldl_applyEntry`, `faults_foldl_applyEntry`: what the entries of a list do
- `settings_eq_ok_iff`: when a preset resolves
- `value_of_last`: the value of a control in a preset that resolves
-/

namespace DynamicRange

namespace Preset

/-- Whether the key of an entry is a name of the control. -/
def addresses (c : Control) (entry : String × String) : Bool :=
  Control.named? entry.1 = some c

/-- The entry that is applied last of those that address a control. -/
def lastFor (c : Control) (entries : List (String × String)) : Option (String × String) :=
  (entries.filter (addresses c)).getLast?

/-- The value of a control after an entry that addresses it; a text with a fault changes nothing. -/
def settle (c : Control) (x : ControlValue) (entry : String × String) : ControlValue :=
  (ControlValue.parse c entry.2).toOption.getD x

/-- The fault of an entry, if it has one. -/
def faultOf? (entry : String × String) : Option Fault :=
  Result.error? (ControlValue.parseNamed entry.1 entry.2)

/-- The last of some entries is the last of all but the first, or the first if it addresses the
control. -/
theorem lastFor_cons (c : Control) (o : String × String) (os : List (String × String)) :
    lastFor c (o :: os) = (lastFor c os).or (if addresses c o then some o else none) := by
  unfold lastFor
  rw [List.filter_cons]
  split
  -- the first entry addresses the control: it is the last one if no other does
  · rw [List.getLast?_cons]
    cases (os.filter (addresses c)).getLast? <;> rfl
  · rw [Option.or_none]

/-- The last entry for a control is the one whose key is not below that of any other. -/
theorem lastFor_eq_some_iff {c : Control} {params : Entries} {entry : String × String} :
    lastFor c params.toList = some entry ↔
      (entry ∈ params.toList ∧ addresses c entry = true) ∧
        ∀ other ∈ params.toList, addresses c other = true → ¬entry.1 < other.1 := by
  -- those of the control are in the order of their keys too
  have hascending : (params.toList.filter (addresses c)).Pairwise (·.1 < ·.1) :=
    params.ascending.filter _
  rw [lastFor, getLast?_eq_some_iff_of_ascending hascending]
  simp only [List.mem_filter, and_imp]

/-- An entry that can be applied changes the settings and adds no fault. -/
theorem applyEntry_of_ok {state : Settings × List Fault} {entry : String × String} {s : Settings}
    (h : state.1.apply entry.1 entry.2 = .ok s) : applyEntry state entry = (s, state.2) := by
  unfold applyEntry
  rw [h]

/-- An entry that cannot be applied adds its fault and leaves the settings. -/
theorem applyEntry_of_error {state : Settings × List Fault} {entry : String × String}
    {fault : Fault} (h : state.1.apply entry.1 entry.2 = .error fault) :
    applyEntry state entry = (state.1, state.2 ++ [fault]) := by
  unfold applyEntry
  rw [h]

/-- An entry gives its control the value in its text, and leaves other controls alone. -/
theorem value_applyEntry (state : Settings × List Fault) (entry : String × String) (c : Control) :
    (applyEntry state entry).1.value c =
      if addresses c entry then settle c (state.1.value c) entry else state.1.value c := by
  rcases state.1.apply_cases entry.1 entry.2 with ⟨c', x, s', hname, hparse, hs', -, happly⟩ |
    ⟨fault, hfault, happly⟩
  -- the control that the entry addresses has the value of the text, and the others keep theirs
  · obtain ⟨hself, hother⟩ := Settings.assign?_eq_some hs'
    rw [applyEntry_of_ok happly]
    by_cases hc : c = c'
    · subst hc
      have haddresses : addresses c entry = true := decide_eq_true hname
      rw [if_pos haddresses, settle, hparse]
      exact hself
    · have haddresses : ¬addresses c entry = true := fun h =>
        hc (Option.some.inj (hname.symm.trans (of_decide_eq_true h))).symm
      rw [if_neg haddresses]
      exact hother c hc
  · -- an entry with a fault changes nothing, whatever its key addresses
    rw [applyEntry_of_error happly]
    split
    next haddresses =>
      have hname : Control.named? entry.1 = some c := of_decide_eq_true haddresses
      have hparse : ControlValue.parse c entry.2 = .error fault :=
        (ControlValue.parseNamed_of_named hname entry.2).symm.trans hfault
      rw [settle, hparse]
      rfl
    next => rfl

/-- An entry adds the fault that it has by itself. -/
theorem faults_applyEntry (state : Settings × List Fault) (entry : String × String) :
    (applyEntry state entry).2 = state.2 ++ (faultOf? entry).toList := by
  rcases state.1.apply_cases entry.1 entry.2 with ⟨c, x, s', -, -, -, hok, happly⟩ |
    ⟨fault, hfault, happly⟩
  · rw [applyEntry_of_ok happly, faultOf?, hok]
    exact (List.append_nil _).symm
  · rw [applyEntry_of_error happly, faultOf?, hfault]
    rfl

/-- The entries that address a control give it their values one after another. -/
theorem value_foldl_applyEntry (entries : List (String × String))
    (state : Settings × List Fault) (c : Control) :
    (entries.foldl applyEntry state).1.value c =
      (entries.filter (addresses c)).foldl (settle c) (state.1.value c) := by
  induction entries generalizing state with
  | nil => rfl
  | cons entry entries ih =>
    -- one entry after another; an entry of another control is passed over
    rw [List.foldl_cons, ih, value_applyEntry, List.filter_cons]
    split <;> rfl

/-- The faults of a run of entries, in their order. -/
theorem faults_foldl_applyEntry (entries : List (String × String))
    (state : Settings × List Fault) :
    (entries.foldl applyEntry state).2 = state.2 ++ entries.filterMap faultOf? := by
  induction entries generalizing state with
  | nil => simp
  | cons entry entries ih =>
    rw [List.foldl_cons, ih, faults_applyEntry, List.append_assoc, List.filterMap_cons]
    cases faultOf? entry <;> rfl

/-- A preset resolves when no entry has a fault and the settings that they give are in range. -/
theorem settings_eq_ok_iff (p : Preset) (s : Settings) :
    p.settings = .ok s ↔
      p.params.toList.filterMap faultOf? = [] ∧ s.faults = [] ∧ p.applied.1 = s := by
  -- the faults that were collected on the way are those of the entries by themselves
  have hfaults : p.applied.2 = p.params.toList.filterMap faultOf? := by
    rw [applied, faults_foldl_applyEntry, List.nil_append]
  obtain ⟨s', faults, happlied⟩ : ∃ s' faults, p.applied = (s', faults) := ⟨_, _, rfl⟩
  rw [← hfaults]
  simp only [settings, happlied]
  constructor
  · intro h
    split at h
    next hnone =>
      obtain rfl := Except.ok.inj h
      obtain ⟨hentries, hrange⟩ := List.append_eq_nil_iff.mp hnone
      exact ⟨hentries, hrange, rfl⟩
    next => exact nomatch h
  · rintro ⟨rfl, hrange, rfl⟩
    rw [hrange]
    rfl

/-- In a preset that resolves the text of every entry parses for the control it addresses. -/
theorem parse_of_faults_eq_nil {entries : List (String × String)}
    (h : entries.filterMap faultOf? = []) {entry : String × String} (hentry : entry ∈ entries)
    {c : Control} (hc : addresses c entry = true) :
    ∃ x, ControlValue.parse c entry.2 = .ok x := by
  -- no fault of the entry is left, so its text has been parsed
  have hnone := List.filterMap_eq_nil_iff.mp h entry hentry
  have hname : Control.named? entry.1 = some c := of_decide_eq_true hc
  cases hparse : ControlValue.parse c entry.2 with
  | ok x => exact ⟨x, rfl⟩
  | error fault =>
    rw [faultOf?, ControlValue.parseNamed_of_named hname, hparse] at hnone
    exact nomatch hnone

/-- A control has the value in the last entry that addresses it, if its text parses. -/
theorem value_applied_of_last {p : Preset} {c : Control} {entry : String × String}
    {x : ControlValue} (hlast : lastFor c p.params.toList = some entry)
    (hparse : ControlValue.parse c entry.2 = .ok x) : p.applied.1.value c = x := by
  -- what comes before the last entry is settled again by it
  obtain ⟨front, hfilter⟩ := List.getLast?_eq_some_iff.mp hlast
  rw [applied, value_foldl_applyEntry, hfilter, List.foldl_append, List.foldl_cons, List.foldl_nil,
    settle, hparse]
  rfl

/-- The last entry that addresses a control gives it its value. -/
theorem value_of_last {p : Preset} {s : Settings} (h : p.settings = .ok s) {c : Control}
    {entry : String × String} (hlast : lastFor c p.params.toList = some entry) :
    ControlValue.parse c entry.2 = .ok (s.value c) := by
  obtain ⟨hentries, -, rfl⟩ := (p.settings_eq_ok_iff s).mp h
  obtain ⟨⟨hentry, haddresses⟩, -⟩ := lastFor_eq_some_iff.mp hlast
  obtain ⟨x, hx⟩ := parse_of_faults_eq_nil hentries hentry haddresses
  rw [value_applied_of_last hlast hx]
  exact hx

end Preset

end DynamicRange
