import DynamicRange.Proofs.Settings.Agreement

/-!
# What the report of a preset leaves out

An unknown name and a text that is no value are faults of an entry, whatever else the preset holds.
A value out of range is noticed only in the settings that the whole preset gives. So when several
keys name one control, the values of all its entries but the last are replaced before they are
looked at, and one that is out of range is not reported. Every other entry is reported exactly when
it has a fault by itself, and once.

## Key results

- `foldl_settle`, `mem_decisive_iff`: which entry gives a control its value
- `report_perm`: the report by the faults of the entries, each taken by itself
- `settings_report`: when a preset resolves, and what it reports otherwise
- `not_forall_entries_reported`: a preset that resolves though an entry is out of range
-/

namespace DynamicRange

/-! ### The range of a value -/

namespace ControlValue

/-- Whether a value is in the range of its control. A mode always is, and so is the limit. -/
def inRange (c : Control) : ControlValue → Bool
  | .number x | .ratio (.finite x) => c.range.contains x
  | .ratio .limit | .link _ | .detection _ => true

/-- The fault of a value out of range. -/
def rangeFault? (c : Control) (x : ControlValue) : Option Fault :=
  if x.inRange c then none
  else some (.outOfRange { id := c.id, value := x.flat, range := c.range })

end ControlValue

namespace Settings

/-- The value of a control is in range just when the setting is. -/
theorem inRange_value (s : Settings) (c : Control) : (s.value c).inRange c = s.inRange c := by
  cases c with
  | ratio =>
    rw [value, inRange]
    cases s.ratio <;> rfl
  | _ => rfl

/-- The faults of settings are those of their values, one for each control. -/
theorem faults_eq_filterMap (s : Settings) :
    s.faults = Control.all.filterMap fun c => (s.value c).rangeFault? c := by
  rw [faults_eq, ← List.filterMap_eq_map, List.filterMap_filter]
  refine List.filterMap_congr fun c _ => ?_
  rw [ControlValue.rangeFault?, inRange_value, flat_value]
  -- a control in range is left out, and one out of range has its report
  cases s.inRange c <;> rfl

end Settings

namespace Preset

/-! ### Entries by themselves -/

/-- An entry that is good by itself: its key names a control, its text parses for that control, and
the value is in range. -/
def Good (entry : String × String) : Prop :=
  ∃ c x, Control.named? entry.1 = some c ∧ ControlValue.parse c entry.2 = .ok x ∧
    x.inRange c = true

/-- The fault that an entry has by itself, if it has one. -/
def ownFault? (entry : String × String) : Option Fault :=
  match Control.named? entry.1 with
  | none => some (.unknownName entry.1)
  | some c =>
    match ControlValue.parse c entry.2 with
    | .error fault => some fault
    | .ok x => x.rangeFault? c

/-- Whether an entry has a value, in range or not. -/
def hasValue (entry : String × String) : Bool :=
  (ControlValue.parseNamed entry.1 entry.2).isOk

/-- Whether the value of an entry is replaced by that of a later entry for the same control. -/
def isReplaced (entries : List (String × String)) (entry : String × String) : Bool :=
  hasValue entry && entries.any fun later =>
    decide (entry.1 < later.1) && decide (Control.named? later.1 = Control.named? entry.1) &&
      hasValue later

/-- A name that no control goes by is the fault of its entry. -/
theorem parseNamed_of_none {name : String} (h : Control.named? name = none) (text : String) :
    ControlValue.parseNamed name text = .error (.unknownName name) := by
  unfold ControlValue.parseNamed Control.resolve
  rw [h]
  rfl

/-- An entry of a control has a value just when its text parses. -/
theorem hasValue_of_named {entry : String × String} {c : Control}
    (h : Control.named? entry.1 = some c) :
    hasValue entry = (ControlValue.parse c entry.2).isOk := by
  rw [hasValue, ControlValue.parseNamed_of_named h]

/-- The text of an entry with a value parses. -/
theorem exists_parse_of_hasValue {entry : String × String} {c : Control}
    (hname : Control.named? entry.1 = some c) (hvalue : hasValue entry = true) :
    ∃ x, ControlValue.parse c entry.2 = .ok x := by
  rw [hasValue_of_named hname] at hvalue
  cases hparse : ControlValue.parse c entry.2 with
  | error fault =>
    rw [hparse] at hvalue
    exact nomatch hvalue
  | ok x => exact ⟨x, rfl⟩

/-- The text of an entry without a value has a fault. -/
theorem exists_fault_of_not_hasValue {entry : String × String} {c : Control}
    (hname : Control.named? entry.1 = some c) (hvalue : hasValue entry = false) :
    ∃ fault, ControlValue.parse c entry.2 = .error fault := by
  rw [hasValue_of_named hname] at hvalue
  cases hparse : ControlValue.parse c entry.2 with
  | error fault => exact ⟨fault, rfl⟩
  | ok x =>
    rw [hparse] at hvalue
    exact nomatch hvalue

/-- The key of an entry with a value names a control. -/
theorem exists_named_of_hasValue {entry : String × String} (h : hasValue entry = true) :
    ∃ c, Control.named? entry.1 = some c := by
  cases hname : Control.named? entry.1 with
  | none =>
    rw [hasValue, parseNamed_of_none hname] at h
    exact nomatch h
  | some c => exact ⟨c, rfl⟩

/-- An entry has no fault of its own just when it is good. -/
theorem ownFault?_eq_none_iff (entry : String × String) : ownFault? entry = none ↔ Good entry := by
  unfold ownFault? Good
  -- the key, the text and the range may each be at fault
  cases hname : Control.named? entry.1 with
  | none => simp
  | some c =>
    simp only
    cases hparse : ControlValue.parse c entry.2 with
    | error fault => simp [hparse]
    | ok x => simp [ControlValue.rangeFault?, hparse]

/-- An entry with a value has no fault in its key or text. -/
theorem faultOf?_of_hasValue {entry : String × String} (h : hasValue entry = true) :
    faultOf? entry = none := by
  obtain ⟨c, hname⟩ := exists_named_of_hasValue h
  obtain ⟨x, hparse⟩ := exists_parse_of_hasValue hname h
  rw [faultOf?, ControlValue.parseNamed_of_named hname, hparse]
  rfl

/-- An entry without a value has no other fault than that of its key or text. -/
theorem faultOf?_of_not_hasValue {entry : String × String} (h : hasValue entry = false) :
    faultOf? entry = ownFault? entry := by
  cases hname : Control.named? entry.1 with
  | none =>
    rw [faultOf?, parseNamed_of_none hname, ownFault?, hname]
    rfl
  | some c =>
    obtain ⟨fault, hparse⟩ := exists_fault_of_not_hasValue hname h
    rw [faultOf?, ControlValue.parseNamed_of_named hname, hparse]
    simp only [ownFault?, hname, hparse]
    rfl

/-! ### The entry that gives a control its value -/

/-- The entries for a control that have a value. -/
def valued (c : Control) (entries : List (String × String)) : List (String × String) :=
  (entries.filter (addresses c)).filter hasValue

/-- The entry that gives a control its value, if there is one. -/
def decisive? (entries : List (String × String)) (c : Control) : Option (String × String) :=
  (valued c entries).getLast?

/-- The entries of a control with values are among the entries. -/
theorem mem_valued_iff {c : Control} {entries : List (String × String)}
    {entry : String × String} :
    entry ∈ valued c entries ↔
      entry ∈ entries ∧ Control.named? entry.1 = some c ∧ hasValue entry = true := by
  simp only [valued, addresses, List.mem_filter, decide_eq_true_eq, and_assoc]

/-- An entry with a value gives it to its control, whatever that had before. -/
theorem exists_settle {c : Control} {entry : String × String}
    (hname : Control.named? entry.1 = some c) (hvalue : hasValue entry = true) :
    ∃ y, ∀ x, settle c x entry = y := by
  obtain ⟨y, hparse⟩ := exists_parse_of_hasValue hname hvalue
  refine ⟨y, fun x => ?_⟩
  rw [settle, hparse]
  rfl

/-- An entry without a value leaves the value of the control. -/
theorem settle_of_not_hasValue {c : Control} {entry : String × String}
    (hname : Control.named? entry.1 = some c) (hvalue : hasValue entry = false)
    (x : ControlValue) : settle c x entry = x := by
  obtain ⟨fault, hparse⟩ := exists_fault_of_not_hasValue hname hvalue
  rw [settle, hparse]
  rfl

/-- The last entry with a value settles a control; those with a fault are passed over. -/
theorem foldl_settle {c : Control} {entries : List (String × String)}
    (h : ∀ entry ∈ entries, Control.named? entry.1 = some c) (x : ControlValue) :
    entries.foldl (settle c) x =
      match (entries.filter hasValue).getLast? with
      | none => x
      | some entry => settle c x entry := by
  -- the induction is on the entries, of which the first is settled first
  induction entries generalizing x with
  | nil => rfl
  | cons first rest ih =>
    obtain ⟨hfirst, hrest⟩ := List.forall_mem_cons.mp h
    rw [List.foldl_cons, ih hrest]
    cases hvalue : hasValue first with
    | false => rw [List.filter_cons_of_neg (by simp [hvalue]), settle_of_not_hasValue hfirst hvalue]
    | true =>
      rw [List.filter_cons_of_pos hvalue, List.getLast?_cons]
      cases hlast : (rest.filter hasValue).getLast? with
      | none => rfl
      | some last =>
        -- the value of the first entry is replaced by that of the last
        obtain ⟨hmem, hvalue'⟩ := List.mem_filter.mp (List.mem_of_getLast? hlast)
        obtain ⟨y, hy⟩ := exists_settle (hrest last hmem) hvalue'
        exact (hy _).trans (hy x).symm

/-- The value of a control in the settings that the entries give. -/
theorem value_applied (p : Preset) (c : Control) :
    p.applied.1.value c =
      match decisive? p.params.toList c with
      | none => ({} : Settings).value c
      | some entry => settle c (({} : Settings).value c) entry := by
  rw [applied, value_foldl_applyEntry]
  refine foldl_settle (fun entry hentry => ?_) _
  exact of_decide_eq_true (List.mem_filter.mp hentry).2

/-- An entry is decisive for its control exactly when it has a value that is not replaced. -/
theorem mem_decisive_iff (params : Entries) (entry : String × String) :
    entry ∈ Control.all.filterMap (decisive? params.toList) ↔
      entry ∈ params.toList ∧ hasValue entry = true ∧
        isReplaced params.toList entry = false := by
  -- in the order of the keys, the last entry with a value is the one above all others
  have hascending (c : Control) : (valued c params.toList).Pairwise (·.1 < ·.1) :=
    (params.ascending.filter _).filter _
  have hdecisive (c : Control) : decisive? params.toList c = some entry ↔
      entry ∈ valued c params.toList ∧
        ∀ other ∈ valued c params.toList, ¬entry.1 < other.1 :=
    getLast?_eq_some_iff_of_ascending (hascending c)
  simp only [List.mem_filterMap, hdecisive, mem_valued_iff]
  constructor
  -- a later entry with a value for the same control would be the last one
  · rintro ⟨c, -, ⟨hmem, hname, hvalue⟩, hlast⟩
    refine ⟨hmem, hvalue, ?_⟩
    simp only [isReplaced, hvalue, Bool.true_and, List.any_eq_false]
    rintro later hlater hreplaces
    simp only [Bool.and_eq_true, decide_eq_true_eq] at hreplaces
    exact hlast later ⟨hlater, hreplaces.1.2.trans hname, hreplaces.2⟩ hreplaces.1.1
  -- if it is not replaced, no entry of the control with a value is above it
  · rintro ⟨hmem, hvalue, hkept⟩
    obtain ⟨c, hname⟩ := exists_named_of_hasValue hvalue
    refine ⟨c, c.mem_all, ⟨hmem, hname, hvalue⟩, ?_⟩
    rintro other ⟨hother, hname', hvalue'⟩ hlt
    simp only [isReplaced, hvalue, Bool.true_and, List.any_eq_false] at hkept
    apply hkept other hother
    simp only [Bool.and_eq_true, decide_eq_true_eq]
    exact ⟨⟨hlt, hname'.trans hname.symm⟩, hvalue'⟩

/-- No entry is decisive for two controls, or in the list twice. -/
theorem nodup_decisive (params : Entries) :
    (Control.all.filterMap (decisive? params.toList)).Nodup := by
  refine List.Nodup.filterMap (fun c c' entry hc hc' => ?_) (by decide)
  have hmem := mem_valued_iff.mp (List.mem_of_getLast? hc)
  have hmem' := mem_valued_iff.mp (List.mem_of_getLast? hc')
  exact Option.some.inj (hmem.2.1.symm.trans hmem'.2.1)

/-- No entry is in a preset twice. -/
theorem nodup_toList (params : Entries) : params.toList.Nodup := by
  refine params.ascending.imp fun {a b} hlt heq => ?_
  exact String.lt_irrefl _ (heq ▸ hlt)

/-! ### The report -/

/-- All that is reported of a preset. -/
def report (p : Preset) : List Fault :=
  p.params.toList.filterMap faultOf? ++ p.applied.1.faults

/-- A preset resolves when there is nothing to report. -/
theorem settings_eq (p : Preset) :
    p.settings = if p.report = [] then .ok p.applied.1 else .error p.report := by
  -- the faults collected on the way are those of the entries
  have hfaults : p.applied.2 = p.params.toList.filterMap faultOf? := by
    rw [applied, faults_foldl_applyEntry, List.nil_append]
  obtain ⟨s, faults, happlied⟩ : ∃ s faults, p.applied = (s, faults) := ⟨_, _, rfl⟩
  rw [report, ← hfaults]
  simp only [settings, happlied]
  split
  next hnone => rw [if_pos hnone]
  next hsome => rw [if_neg hsome]

/-- The values out of range that are reported are those of the decisive entries: what no entry
gives is in range by default. -/
theorem faults_applied (p : Preset) :
    p.applied.1.faults =
      (Control.all.filterMap (decisive? p.params.toList)).filterMap ownFault? := by
  rw [Settings.faults_eq_filterMap, List.filterMap_filterMap]
  refine List.filterMap_congr fun c _ => ?_
  rw [value_applied]
  -- no entry gives the control a value, or the last one that does
  cases hdecisive : decisive? p.params.toList c with
  | none =>
    have hdefault : ({} : Settings).inRange c = true := by
      cases c <;> decide
    simp only [ControlValue.rangeFault?, Settings.inRange_value, hdefault, if_true,
      Option.bind_none]
  | some entry =>
    obtain ⟨-, hname, hvalue⟩ := mem_valued_iff.mp (List.mem_of_getLast? hdecisive)
    obtain ⟨x, hparse⟩ := exists_parse_of_hasValue hname hvalue
    simp only [Option.bind_some, ownFault?, hname, settle, hparse]
    rfl

/-- The entries that are not replaced. -/
def kept (entries : List (String × String)) : List (String × String) :=
  entries.filter fun entry => !isReplaced entries entry

/-- The entries that are kept, one by one. -/
theorem mem_kept_iff {entries : List (String × String)} {entry : String × String} :
    entry ∈ kept entries ↔ entry ∈ entries ∧ isReplaced entries entry = false := by
  simp [kept]

/-- The report, up to its order: what each entry that is not replaced has by itself. -/
theorem report_perm (p : Preset) :
    p.report.Perm ((kept p.params.toList).filterMap ownFault?) := by
  -- the entries with a value are the decisive ones
  have hvalues : ((kept p.params.toList).filter hasValue).Perm
      (Control.all.filterMap (decisive? p.params.toList)) := by
    have hnodup : ((kept p.params.toList).filter hasValue).Nodup :=
      ((nodup_toList p.params).filter _).filter _
    refine (List.perm_ext_iff_of_nodup hnodup (nodup_decisive p.params)).mpr fun entry => ?_
    rw [mem_decisive_iff, List.mem_filter, mem_kept_iff]
    exact ⟨fun ⟨⟨hentry, hkept⟩, hvalue⟩ => ⟨hentry, hvalue, hkept⟩,
      fun ⟨hentry, hvalue, hkept⟩ => ⟨⟨hentry, hkept⟩, hvalue⟩⟩
  -- those without one are never replaced, and have the fault of their key or text
  have hothers : ((kept p.params.toList).filter fun entry => !hasValue entry).filterMap ownFault? =
      p.params.toList.filterMap faultOf? := by
    rw [kept, List.filter_filter, List.filterMap_filter]
    refine List.filterMap_congr fun entry _ => ?_
    cases hvalue : hasValue entry with
    | true => simp [faultOf?_of_hasValue hvalue]
    | false => simp [isReplaced, hvalue, faultOf?_of_not_hasValue hvalue]
  -- the two kinds together are the entries kept
  rw [report, ← hothers, faults_applied]
  refine ((hvalues.symm.filterMap _).append_left _).trans ?_
  rw [← List.filterMap_append]
  exact (List.perm_append_comm.trans (List.filter_append_perm hasValue _)).filterMap _

/-- The faults of all entries are those of the entries kept and of those replaced. -/
theorem filterMap_ownFault?_perm (entries : List (String × String)) :
    (entries.filterMap ownFault?).Perm
      ((kept entries).filterMap ownFault? ++
        (entries.filter (isReplaced entries)).filterMap ownFault?) := by
  rw [← List.filterMap_append]
  exact ((List.filter_append_perm _ entries).symm.trans List.perm_append_comm).filterMap _

/-- A preset resolves only if all its entries are good, and is reported by the fault of each entry
that is not. -/
def EntriesReported (p : Preset) : Prop :=
  (∀ s, p.settings = .ok s → ∀ entry ∈ p.params.toList, Good entry) ∧
    ∀ faults, p.settings = .error faults → faults.Perm (p.params.toList.filterMap ownFault?)

/-- What is reported against what should be: all of it, exactly when no entry that is replaced has
a fault. -/
theorem entriesReported_iff (p : Preset) :
    p.EntriesReported ↔
      ∀ entry ∈ p.params.toList, isReplaced p.params.toList entry = true → Good entry := by
  -- the report has the faults of the entries kept, and what is wanted those of all
  have hreport := p.report_perm
  have hall := filterMap_ownFault?_perm p.params.toList
  have hreplaced : (p.params.toList.filter (isReplaced p.params.toList)).filterMap ownFault? = [] ↔
      ∀ entry ∈ p.params.toList, isReplaced p.params.toList entry = true → Good entry := by
    simp only [List.filterMap_eq_nil_iff, List.mem_filter, ownFault?_eq_none_iff, and_imp]
  rw [← hreplaced, EntriesReported, settings_eq]
  constructor
  · rintro ⟨hok, herror⟩
    by_cases hnone : p.report = []
    · rw [if_pos hnone] at hok
      exact hreplaced.mpr fun entry hentry _ => hok _ rfl entry hentry
    · -- the faults of the replaced entries would make the report longer
      rw [if_neg hnone] at herror
      have hlength := ((hreport.symm.trans (herror _ rfl)).trans hall).length_eq
      rw [List.length_append] at hlength
      exact List.eq_nil_of_length_eq_zero (by omega)
  -- without faults of replaced entries the two lists are the same
  · intro hnone
    rw [hnone, List.append_nil] at hall
    have hfaults := hreport.trans hall.symm
    split
    next hempty =>
      rw [hempty] at hfaults
      have hgood := List.filterMap_eq_nil_iff.mp hfaults.nil_eq.symm
      exact ⟨fun _ _ entry hentry => (ownFault?_eq_none_iff entry).mp (hgood entry hentry), nofun⟩
    next =>
      refine ⟨nofun, fun faults h => ?_⟩
      obtain rfl := Except.error.inj h
      exact hfaults

/-- Among keys of different controls no entry is replaced. -/
theorem isReplaced_eq_false {entries : List (String × String)}
    (h : ∀ a ∈ entries, ∀ b ∈ entries, Control.named? a.1 = Control.named? b.1 →
      Control.named? a.1 ≠ none → a = b)
    {entry : String × String} (hentry : entry ∈ entries) : isReplaced entries entry = false := by
  rw [isReplaced]
  cases hvalue : hasValue entry with
  | false => rfl
  | true =>
    -- an entry that replaces this one would be of the same control, and so this one
    obtain ⟨c, hname⟩ := exists_named_of_hasValue hvalue
    rw [Bool.true_and, List.any_eq_false]
    intro later hlater hreplaces
    simp only [Bool.and_eq_true, decide_eq_true_eq] at hreplaces
    have heq := h entry hentry later hlater hreplaces.1.2.symm (by simp [hname])
    exact String.lt_irrefl _ (heq ▸ hreplaces.1.1)

/-- A preset resolves exactly when all entries that are not replaced are good, and otherwise each of
them that is not is reported once. So every fault of an entry is reported exactly when no entry with
a value out of range is replaced by a later one for the same control; no entry is when the keys name
different controls. -/
theorem settings_report (p : Preset) :
    ((∃ s, p.settings = .ok s) ↔
      ∀ entry ∈ p.params.toList, isReplaced p.params.toList entry = false → Good entry) ∧
    (∀ faults, p.settings = .error faults →
      faults.Perm ((kept p.params.toList).filterMap ownFault?)) ∧
    (p.EntriesReported ↔
      ∀ entry ∈ p.params.toList, isReplaced p.params.toList entry = true → Good entry) ∧
    ((∀ a ∈ p.params.toList, ∀ b ∈ p.params.toList, Control.named? a.1 = Control.named? b.1 →
      Control.named? a.1 ≠ none → a = b) → p.EntriesReported) := by
  have hreport := p.report_perm
  -- the first and the last part follow from what is reported
  refine ⟨?_, ?_, p.entriesReported_iff, fun hkeys => ?_⟩
  -- nothing is reported just when no entry that is kept has a fault
  · have hgood : p.report = [] ↔
        ∀ entry ∈ p.params.toList, isReplaced p.params.toList entry = false → Good entry := by
      rw [← List.perm_nil, (hreport.congr_left _), List.perm_nil, List.filterMap_eq_nil_iff]
      simp only [mem_kept_iff, ownFault?_eq_none_iff, and_imp]
    rw [← hgood, settings_eq]
    split
    next hnone => exact iff_of_true ⟨_, rfl⟩ hnone
    next hsome => exact iff_of_false nofun hsome
  · intro faults hfaults
    rw [settings_eq] at hfaults
    split at hfaults
    · exact nomatch hfaults
    · obtain rfl := Except.error.inj hfaults
      exact hreport
  · refine p.entriesReported_iff.mpr fun entry hentry hreplaced => ?_
    exact nomatch (isReplaced_eq_false hkeys hentry).symm.trans hreplaced

/-- An unknown name, a value out of range and a text that is no number. -/
private def threeFaults : Preset where
  params := .ofList [("drive", "1"), ("knee", "12"), ("mix", "half")]

/-- Keys of different controls, so all three faults are reported. -/
theorem settings_report_three_faults :
    ∃ faults, threeFaults.settings = .error faults ∧ faults.length = 3 ∧
      faults.Perm (threeFaults.params.toList.filterMap ownFault?) := by
  -- the keys name no control twice
  have hreported := (settings_report threeFaults).2.2.2 (by decide +kernel)
  have hfails : threeFaults.settings.toOption.isNone = true := by decide +kernel
  have hlength : (threeFaults.params.toList.filterMap ownFault?).length = 3 := by decide +kernel
  cases hsettings : threeFaults.settings with
  | ok s =>
    rw [hsettings] at hfails
    exact nomatch hfails
  | error faults =>
    have hperm := hreported.2 faults hsettings
    exact ⟨faults, rfl, hperm.length_eq.trans hlength, hperm⟩

/-- A make-up gain out of range, and one in range under a name that sorts after the stable one. -/
private def replacedGain : Preset where
  params := .ofList [("makeup", "100"), ("makeup gain", "4")]

/-- A preset may resolve though a value in it is out of range. -/
theorem not_forall_entries_reported : ¬∀ p : Preset, p.EntriesReported := by
  intro hreported
  -- the first entry is replaced, and its value is out of range
  have hreplaced : isReplaced replacedGain.params.toList ("makeup", "100") = true := by
    decide +kernel
  have hfault : (ownFault? ("makeup", "100")).isSome = true := by decide +kernel
  -- if all were reported, a replaced entry would have to be good
  have hgood := (entriesReported_iff _).mp (hreported replacedGain) ("makeup", "100")
    (by decide +kernel) hreplaced
  rw [(ownFault?_eq_none_iff _).mpr hgood] at hfault
  exact nomatch hfault

end Preset

end DynamicRange
