import DynamicRange.Proofs.Result
import DynamicRange.Proofs.Scalar.Order
import DynamicRange.Settings.Fault

/-!
# Validity of settings

Settings pass the check when each of them lies in its range. A control is limited to its range
before it is set, so no flat value, be it infinite or not a number, can make valid settings invalid.

## Key results

- `Range.check_eq`, `Control.faultOf?_eq`: both checks of one value, by the range
- `Settings.validate_eq_ok_iff`: the check in terms of the ranges
- `Settings.faults_eq_nil_iff`: the check of flat values accepts the same settings
- `Settings.Valid.set`, `Settings.Valid.setParameter`: setters keep settings valid
-/

namespace DynamicRange

namespace Range

/-- Whether a value lies in the interval. NaN does not. -/
def contains (r : Range) (x : Float32) : Bool := r.min ≤ x && x ≤ r.max

/-- Containment by the two ends. -/
theorem contains_iff (r : Range) (x : Float32) :
    r.contains x = true ↔ r.min ≤ x ∧ x ≤ r.max := by
  simp [contains]

/-- What is neither NaN nor beyond an end lies in the interval, and nothing else does. -/
theorem not_contains_eq (r : Range) (x : Float32) :
    (!r.contains x) = (x.isNaN || x < r.min || x > r.max) := by
  obtain ⟨hmin, hmax⟩ := Scalar.not_isNaN_of_le r.ordered
  cases hcontains : r.contains x with
  -- what lies in the interval is not NaN and beyond neither end
  | true =>
    obtain ⟨hge, hle⟩ := (r.contains_iff x).mp hcontains
    rw [(Scalar.not_isNaN_of_le hge).2, decide_eq_false (Scalar.not_lt_of_le hge),
      decide_eq_false (Scalar.not_lt_of_le hle)]
    rfl
  | false =>
    -- a number that is beyond neither end is between them, since comparison is total on numbers
    refine Decidable.byContradiction fun hnone => ?_
    have hneither := eq_false_of_ne_true (Ne.symm hnone)
    simp only [Bool.or_eq_false_iff, decide_eq_false_iff_not] at hneither
    obtain ⟨⟨hnan, hge⟩, hle⟩ := hneither
    have hin := (r.contains_iff x).mpr
      ⟨Scalar.le_of_not_lt hmin hnan hge, Scalar.le_of_not_lt hnan hmax hle⟩
    exact Bool.false_ne_true (hcontains.symm.trans hin)

/-- The check lets through what lies in the interval. -/
theorem check_eq (r : Range) (id : String) (x : Float32) :
    r.check id x = if r.contains x then .ok () else .error { id, value := x, range := r } := by
  rw [check, ← not_contains_eq]
  cases r.contains x <;> rfl

/-- The check is passed by what lies in the interval, and by nothing else. -/
theorem check_eq_ok_iff (r : Range) (id : String) (x : Float32) :
    r.check id x = .ok () ↔ r.contains x = true := by
  rw [check_eq]
  cases r.contains x with
  | true => exact iff_of_true rfl rfl
  | false => exact iff_of_false nofun nofun

/-- A number limited to a range lies in it. -/
theorem contains_limit (r : Range) {x : Float32} (hx : x.isNaN = false) :
    r.contains (Scalar.limit r.min r.max x) = true :=
  (r.contains_iff _).mpr ⟨Scalar.le_limit r.ordered hx, Scalar.limit_le r.ordered hx⟩

/-- What lies between finite ends is finite. -/
theorem isFinite_of_contains {r : Range} (hmin : r.min.isFinite = true)
    (hmax : r.max.isFinite = true) {x : Float32} (h : r.contains x = true) :
    x.isFinite = true := by
  obtain ⟨hge, hle⟩ := (r.contains_iff x).mp h
  exact Scalar.isFinite_of_le_of_le hmin hmax hge hle

end Range

/-- Every control is in the list of all. -/
theorem Control.mem_all (c : Control) : c ∈ all := by
  cases c <;> decide

/-- The description of a control and its range contain the same values. -/
theorem Control.contains_range (c : Control) (x : Float32) :
    c.range.contains x = c.descriptor.contains x := rfl

/-- A flat value has a fault when it is not in the range. That it is not NaN need not be asked. -/
theorem Control.faultOf?_eq (c : Control) (x : Float32) :
    c.faultOf? x = if c.descriptor.contains x then none
      else some (.outOfRange { id := c.id, value := x, range := c.range }) := by
  rw [faultOf?]
  cases hcontains : c.descriptor.contains x with
  | true =>
    -- a comparison that holds is not one with NaN
    obtain ⟨hge, -⟩ := (c.range.contains_iff x).mp ((c.contains_range x).trans hcontains)
    rw [(Scalar.not_isNaN_of_le hge).2]
    rfl
  | false =>
    rw [Bool.not_false, Bool.or_true]
    rfl

/-- A flat value has no fault just when it is in the range of its control. -/
theorem Control.faultOf?_eq_none_iff (c : Control) (x : Float32) :
    c.faultOf? x = none ↔ c.descriptor.contains x = true := by
  rw [faultOf?_eq]
  cases c.descriptor.contains x with
  | true => exact iff_of_true rfl rfl
  | false => exact iff_of_false nofun nofun

namespace Settings

/-- Each setting lies in its range. -/
structure Valid (s : Settings) : Prop where
  threshold : Range.threshold.contains s.threshold = true
  ratio : ∀ r, s.ratio = .finite r → Range.ratio.contains r = true
  attack : Range.attack.contains s.attack = true
  release : Range.release.contains s.release = true
  makeup : Range.makeup.contains s.makeup = true
  knee : Range.knee.contains s.knee = true
  mix : Range.mix.contains s.mix = true

/-- A check in a row is passed when the first one is and the others are. -/
private theorem check_bind_eq_ok_iff (r : Range) (id : String) (x : Float32)
    (next : Unit → Except RangeError PUnit) :
    -- nothing is returned by a check but that it is passed
    (r.check id x >>= next) = .ok () ↔ r.contains x = true ∧ next () = .ok () := by
  rw [Result.bind_eq_ok_iff, ← r.check_eq_ok_iff id x]
  constructor
  · rintro ⟨⟨⟩, hcheck, hnext⟩
    exact ⟨hcheck, hnext⟩
  · rintro ⟨hcheck, hnext⟩
    exact ⟨(), hcheck, hnext⟩

/-- The check accepts just the valid settings. -/
theorem validate_eq_ok_iff (s : Settings) : s.validate = .ok () ↔ s.Valid := by
  unfold validate
  rw [check_bind_eq_ok_iff]
  -- the limit is no finite ratio, and one check less is made for it
  cases hr : s.ratio with
  | finite r =>
    simp only [check_bind_eq_ok_iff, Range.check_eq_ok_iff]
    constructor
    · rintro ⟨threshold, hratio, attack, release, makeup, knee, mix⟩
      have ratio : ∀ r, s.ratio = .finite r → Range.ratio.contains r = true := by
        intro r' h'
        obtain rfl := Ratio.finite.inj (hr.symm.trans h')
        exact hratio
      exact { threshold, ratio, attack, release, makeup, knee, mix }
    · intro h
      exact ⟨h.threshold, h.ratio r hr, h.attack, h.release, h.makeup, h.knee, h.mix⟩
  | limit =>
    simp only [check_bind_eq_ok_iff, Range.check_eq_ok_iff]
    constructor
    · rintro ⟨threshold, attack, release, makeup, knee, mix⟩
      have ratio : ∀ r, s.ratio = .finite r → Range.ratio.contains r = true := by
        intro r h
        exact nomatch hr.symm.trans h
      exact { threshold, ratio, attack, release, makeup, knee, mix }
    · intro h
      exact ⟨h.threshold, h.attack, h.release, h.makeup, h.knee, h.mix⟩

/-- The index of a link mode is in the range of its control. -/
theorem contains_link (mode : LinkMode) :
    Control.link.descriptor.contains (.ofNat mode.index) = true := by
  cases mode <;> decide

/-- The index of a detection is in the range of its control. -/
theorem contains_detection (law : Detection) :
    Control.detection.descriptor.contains (.ofNat law.index) = true := by
  cases law <;> decide

/-- The flat value of a valid setting is in the range of its control, unless it is the limit. -/
theorem Valid.contains_get {s : Settings} (hs : s.Valid) (c : Control) :
    c.descriptor.contains (s.get c) = true ∨ c = .ratio ∧ s.ratio = .limit := by
  cases c with
  | threshold => exact .inl hs.threshold
  | ratio =>
    rw [get]
    cases hr : s.ratio with
    | finite r => exact .inl (hs.ratio r hr)
    | limit => exact .inr ⟨rfl, rfl⟩
  | attack => exact .inl hs.attack
  | release => exact .inl hs.release
  | makeup => exact .inl hs.makeup
  | knee => exact .inl hs.knee
  | link => exact .inl (contains_link s.link)
  | detection => exact .inl (contains_detection s.detection)
  | mix => exact .inl hs.mix

/-- The flat values have no faults in just the valid settings. -/
theorem faults_eq_nil_iff (s : Settings) : s.faults = [] ↔ s.Valid := by
  -- no fault, control by control, but for the limit, which is not asked
  have hall : s.faults = [] ↔ ∀ c : Control, ¬(c = .ratio ∧ s.ratio.isLimit = true) →
      c.descriptor.contains (s.get c) = true := by
    rw [faults, List.filterMap_eq_nil_iff]
    refine ⟨fun h c hc => ?_, fun h c _ => ?_⟩
    · have hnone := h c c.mem_all
      rw [if_neg hc] at hnone
      exact (c.faultOf?_eq_none_iff _).mp hnone
    · split
      · rfl
      · exact (c.faultOf?_eq_none_iff _).mpr (h c ‹_›)
  rw [hall]
  -- from flat values to settings and back; a finite ratio is its own flat value
  constructor
  · intro h
    refine { threshold := h .threshold nofun, ratio := fun r hr => ?_, attack := h .attack nofun,
             release := h .release nofun, makeup := h .makeup nofun, knee := h .knee nofun,
             mix := h .mix nofun }
    have hratio := h .ratio (by rw [hr]; exact fun hlimit => nomatch hlimit.2)
    rw [get, hr] at hratio
    exact hratio
  · intro h c hc
    rcases h.contains_get c with hcontains | ⟨rfl, hlimit⟩
    · exact hcontains
    · exact absurd ⟨rfl, by rw [hlimit]; rfl⟩ hc

/-- The number of a finite ratio is limited to its range. -/
theorem ratio_ofValue {x r : Float32} (hx : x.isNaN = false) (h : Ratio.ofValue x = .finite r) :
    Range.ratio.contains r = true := by
  unfold Ratio.ofValue at h
  split at h
  · exact nomatch h
  · obtain rfl := Ratio.finite.inj h
    exact Range.ratio.contains_limit hx

/-- A control is limited before it is set, and NaN is ignored. -/
theorem Valid.set {s : Settings} (hs : s.Valid) (c : Control) (x : Float32) :
    (s.set c x).Valid := by
  -- what is not NaN is limited to the range of the control it is set for
  cases hx : x.isNaN with
  | true =>
    rw [Settings.set, if_pos hx]
    exact hs
  | false =>
    rw [Settings.set, hx]
    cases c with
    | threshold => exact { hs with threshold := Range.threshold.contains_limit hx }
    | ratio => exact { hs with ratio := fun r hr => ratio_ofValue hx hr }
    | attack => exact { hs with attack := Range.attack.contains_limit hx }
    | release => exact { hs with release := Range.release.contains_limit hx }
    | makeup => exact { hs with makeup := Range.makeup.contains_limit hx }
    | knee => exact { hs with knee := Range.knee.contains_limit hx }
    | link => exact { hs with }
    | detection => exact { hs with }
    | mix => exact { hs with mix := Range.mix.contains_limit hx }

/-- There is nothing to set beyond the last control. -/
theorem Valid.setParameter {s : Settings} (hs : s.Valid) (i : Nat) (x : Float32) :
    (Parametric.setParameter s i x).Valid := by
  show (((Control.ofIndex? i).map (s.set · x)).getD s).Valid
  cases Control.ofIndex? i with
  | none => exact hs
  | some c => exact hs.set c x

end Settings

end DynamicRange
