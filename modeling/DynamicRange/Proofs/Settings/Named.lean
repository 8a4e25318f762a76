import DynamicRange.Proofs.Settings.Agreement
import DynamicRange.Proofs.Settings.Flat

/-!
# Checks by name

One flat value can be checked by itself, under the name of its control. The faults of settings are
what these checks report of the flat values of all controls, with one exception. The limit is no
finite ratio, and settings may have it; as a flat value it is infinity, which is out of the range of
the ratio.

## Key results

- `Control.checkNamed_of_named`, `Control.checkNamed_of_unknown`: the check of one value
- `Settings.error?_checkNamed_get`: what it reports of a setting
- `Settings.faults_agree_checkNamed`: the faults of settings by the checks of their flat values
- `Settings.not_forall_checkNamed`: the limit, which is valid and fails the check of its flat value
-/

namespace DynamicRange

namespace Control

variable {c : Control} {name : String}

/-- The check of a value ends with its fault. -/
private theorem checkNamed_eq (h : named? name = some c) (x : Float32) :
    checkNamed name x = match c.faultOf? x with
      | some fault => .error fault
      | none => .ok () := by
  unfold checkNamed resolve
  rw [h]
  cases hfault : c.faultOf? x <;> simp only [bind, Except.bind, hfault] <;> rfl

/-- A value is checked against the range of the control that goes by the name. -/
theorem checkNamed_of_named (h : named? name = some c) (x : Float32) :
    checkNamed name x =
      if c.descriptor.contains x then .ok ()
      else .error (.outOfRange { id := c.id, value := x, range := c.range }) := by
  rw [checkNamed_eq h, faultOf?_eq]
  cases c.descriptor.contains x <;> rfl

/-- A name that no control goes by is reported. -/
theorem checkNamed_of_unknown (h : named? name = none) (x : Float32) :
    checkNamed name x = .error (.unknownName name) := by
  unfold checkNamed resolve
  rw [h]
  rfl

/-- The check reports the fault of the value. -/
theorem error?_checkNamed (c : Control) (x : Float32) :
    Result.error? (checkNamed c.id x) = c.faultOf? x := by
  rw [checkNamed_eq c.named?_id]
  cases c.faultOf? x <;> rfl

/-- The control at an index has that index. -/
theorem eq_index_of_ofIndex? {i : ℕ} (h : ofIndex? i = some c) : i = c.index := by
  rcases Nat.lt_or_ge i 9 with hlt | hge
  · obtain ⟨c', rfl⟩ := exists_index hlt
    rw [ofIndex?_index] at h
    rw [Option.some.inj h]
  · exact nomatch (ofIndex?_eq_none hge).symm.trans h

end Control

namespace Settings

open Parametric (parameter)

/-- The one flat value of valid settings that does not pass its check. -/
theorem checkNamed_limit {s : Settings} (h : s.ratio = .limit) :
    Control.checkNamed "ratio" (s.get .ratio) =
      .error (.outOfRange { id := "ratio", value := Scalar.infinity, range := Range.ratio }) := by
  have hvalue : s.get .ratio = Scalar.infinity := by
    rw [get, h]
    rfl
  have hout : Control.ratio.descriptor.contains Scalar.infinity = false := by decide
  -- the stable name is that of the ratio, and infinity is not in its range
  have hname : Control.named? "ratio" = some .ratio := Control.named?_id .ratio
  rw [hvalue, Control.checkNamed_of_named hname, hout]
  rfl

/-- The faults are those that the checks report, without that of the limit. -/
theorem faults_eq_filterMap_checkNamed (s : Settings) :
    s.faults = Control.all.filterMap fun c =>
      if c = .ratio ∧ s.ratio = .limit then none
      else Result.error? (Control.checkNamed c.id (s.get c)) := by
  -- only the ratio can be the limit
  have hlimit : s.ratio.isLimit = true ↔ s.ratio = .limit := by
    cases s.ratio with
    | finite r => exact ⟨nofun, nofun⟩
    | limit => exact ⟨fun _ => rfl, fun _ => rfl⟩
  unfold faults
  simp only [hlimit, Control.error?_checkNamed]

/-- The settings have no fault when each flat value passes its check, or is the limit. -/
theorem faults_eq_nil_iff_checkNamed (s : Settings) :
    s.faults = [] ↔
      ∀ c, (c = .ratio ∧ s.ratio = .limit) ∨ Control.checkNamed c.id (s.get c) = .ok () := by
  rw [faults_eq_filterMap_checkNamed, List.filterMap_eq_nil_iff]
  -- a control without a fault passes its check, and the other way round
  refine ⟨fun h c => ?_, fun h c _ => ?_⟩
  · have hnone := h c (Control.mem_all c)
    split at hnone
    next hc => exact .inl hc
    next =>
      cases hcheck : Control.checkNamed c.id (s.get c) with
      | ok _ => exact .inr rfl
      | error fault =>
        rw [hcheck] at hnone
        exact nomatch hnone
  · rcases h c with hc | hcheck
    · exact if_pos hc
    · rw [hcheck]
      exact ite_self none

/-- The faults of settings and the checks of their nine flat values by name, whatever the settings
are. The settings have no fault exactly when every flat value passes its check, where that of the
limit need not. Without the limit it is every one of them. The faults are the errors of these
checks, in the order of the indices. The flat value of the limit is reported to be out of range. -/
theorem faults_agree_checkNamed (s : Settings) :
    (s.faults = [] ↔ ∀ i c, Control.ofIndex? i = some c →
        (c = .ratio ∧ s.ratio = .limit) ∨ Control.checkNamed c.id (parameter s i) = .ok ()) ∧
      (s.ratio ≠ .limit → (s.faults = [] ↔ ∀ i c, Control.ofIndex? i = some c →
        Control.checkNamed c.id (parameter s i) = .ok ())) ∧
      (s.faults = Control.all.filterMap fun c =>
        if c = .ratio ∧ s.ratio = .limit then none
        else Result.error? (Control.checkNamed c.id (parameter s c.index))) ∧
      (s.ratio = .limit → Control.checkNamed "ratio" (parameter s 1) = .error (.outOfRange
        { id := "ratio", value := Scalar.infinity, range := Range.ratio })) := by
  have hindex : s.faults = [] ↔ ∀ i c, Control.ofIndex? i = some c →
      (c = .ratio ∧ s.ratio = .limit) ∨ Control.checkNamed c.id (parameter s i) = .ok () := by
    -- from indices to controls: each index below nine is that of a control
    rw [faults_eq_nil_iff_checkNamed]
    refine ⟨fun h i c hc => ?_, fun h c => ?_⟩
    · obtain rfl := Control.eq_index_of_ofIndex? hc
      rw [parameter_index]
      exact h c
    · have hc := h c.index c (Control.ofIndex?_index c)
      rwa [parameter_index] at hc
  refine ⟨hindex, fun hne => ?_, ?_, fun h => ?_⟩
  -- without the limit the exception is void
  · rw [hindex]
    simp only [hne, and_false, false_or]
  · simp only [parameter_index]
    exact faults_eq_filterMap_checkNamed s
  · exact checkNamed_limit h

/-- The limit is valid, and its flat value does not pass the check. -/
theorem not_forall_checkNamed :
    ¬∀ s : Settings, s.faults = [] ↔ ∀ i c, Control.ofIndex? i = some c →
      Control.checkNamed c.id (parameter s i) = .ok () := by
  intro h
  -- the limit is valid, and so without faults
  have hvalid : faults { ratio := .limit } = [] := (faults_eq_nil_iff _).mpr
    ((validate_eq_ok_iff _).mp rfl)
  have hcheck : Control.checkNamed "ratio" (get { ratio := .limit } .ratio) = .ok () :=
    (h { ratio := .limit }).mp hvalid 1 .ratio rfl
  exact nomatch (checkNamed_limit rfl).symm.trans hcheck

end Settings

end DynamicRange
