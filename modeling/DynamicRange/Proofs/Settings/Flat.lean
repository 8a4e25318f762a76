import DynamicRange.Proofs.Scalar.Limit
import DynamicRange.Proofs.Settings.Storage
import DynamicRange.Proofs.Settings.Validity

/-!
# Flat access to settings

Hosts know the settings as a row of nine numbers. What is read from the row was limited before it
was stored, and then passed through one of three kinds of values: numbers, ratios, of which infinity
is the limit, and modes, which are given by a rounded index. The row is a store all the same. A
number that is read can be set again without a change, a later set of a control replaces an earlier
one, and sets of two controls do not see each other.

## Key results

- `Settings.value_set`: what a set changes
- `Settings.get_set_of_contains`: what is read after a set
- `Settings.Valid.set_get`: setting what was read changes nothing
- `Settings.set_set`, `Settings.set_comm`, `Settings.get_set_mono`: two sets
- `Settings.setParameter_laws`: the laws of the row, by index
-/

namespace DynamicRange

open Binary
open Scalar (nearestIndex)

/-! ### Ratios and modes as numbers -/

namespace Ratio

/-- Infinity stands for the limit. -/
theorem ofValue_infinity : ofValue Scalar.infinity = limit := rfl

/-- Any other number stands for a finite ratio, limited to the range. -/
theorem ofValue_of_ne {x : Float32} (h : x ≠ Scalar.infinity) :
    ofValue x = finite (Scalar.limit 1 20 x) :=
  if_neg (mt (Scalar.beq_infinity_iff x).mp h)

/-- Infinity is the greatest ratio, and the others keep their order. -/
theorem ofValue_mono {x y : Float32} (h : x ≤ y) : (ofValue x).value ≤ (ofValue y).value := by
  obtain ⟨hx, hy⟩ := Scalar.not_isNaN_of_le h
  have hends : (1 : Float32) ≤ 20 := by decide
  by_cases hxtop : x = Scalar.infinity
  · -- nothing but infinity is above it
    obtain rfl := Scalar.eq_infinity_of_le (hxtop ▸ h)
    rw [hxtop]
    exact Scalar.le_refl rfl
  by_cases hytop : y = Scalar.infinity
  · -- what is limited is finite
    have hfinite : Finite (Scalar.limit 1 20 x) :=
      Scalar.isFinite_of_le_of_le rfl rfl (Scalar.le_limit hends hx) (Scalar.limit_le hends hx)
    rw [ofValue_of_ne hxtop, hytop, ofValue_infinity]
    exact le_infinity hfinite
  -- two finite ratios are limited to the same range
  rw [ofValue_of_ne hxtop, ofValue_of_ne hytop]
  exact Scalar.limit_mono rfl rfl hends h

end Ratio

/-- The index of a link mode made of a number: the number, up to one. -/
theorem LinkMode.index_ofIndex (i : ℕ) : (ofIndex i).index = min i 1 := by
  cases i with
  | zero => rfl
  | succ i => exact (Nat.min_eq_right (Nat.le_add_left 1 i)).symm

/-- The index of a detection made of a number: the number, up to one. -/
theorem Detection.index_ofIndex (i : ℕ) : (ofIndex i).index = min i 1 := by
  cases i with
  | zero => rfl
  | succ i => exact (Nat.min_eq_right (Nat.le_add_left 1 i)).symm

/-- A link mode is given back by its index as a number. -/
theorem LinkMode.ofIndex_nearestIndex (mode : LinkMode) :
    ofIndex (nearestIndex (.ofNat mode.index)) = mode := by
  cases mode <;> decide

/-- A detection is given back by its index as a number. -/
theorem Detection.ofIndex_nearestIndex (law : Detection) :
    ofIndex (nearestIndex (.ofNat law.index)) = law := by
  cases law <;> decide

/-- There are two modes of either kind. -/
private theorem ofNat_min_one_mono {i j : ℕ} (h : i ≤ j) :
    Float32.ofNat (min i 1) ≤ .ofNat (min j 1) := by
  -- the two are the same, or zero and one
  have hcases : min i 1 = min j 1 ∨ min i 1 = 0 ∧ min j 1 = 1 := by omega
  rcases hcases with heq | ⟨hi, hj⟩
  · -- the same mode
    rw [heq]
    have hone : min j 1 = 0 ∨ min j 1 = 1 := by omega
    rcases hone with hj | hj <;> rw [hj] <;> decide
  · rw [hi, hj]
    decide

namespace Control

variable {x y : Float32}

/-! ### What a control takes -/

/-- The value that a control takes when it is set to a number. -/
def taken (c : Control) (x : Float32) : ControlValue :=
  match c with
  | ratio => .ratio (.ofValue x)
  | link => .link (.ofIndex (nearestIndex (c.descriptor.clamp x)))
  | detection => .detection (.ofIndex (nearestIndex (c.descriptor.clamp x)))
  | _ => .number (c.descriptor.clamp x)

/-- The ends of a range are numbers, in their order. -/
private theorem ends (c : Control) : Finite c.descriptor.min ∧ Finite c.descriptor.max ∧
    c.descriptor.min ≤ c.descriptor.max := by
  cases c <;> exact ⟨rfl, rfl, by decide⟩

/-- Limiting keeps the order of numbers. -/
theorem clamp_mono (c : Control) (h : x ≤ y) : c.descriptor.clamp x ≤ c.descriptor.clamp y :=
  Scalar.limit_mono c.ends.1 c.ends.2.1 c.ends.2.2 h

/-- A number that is limited is not below the range. -/
theorem le_clamp (c : Control) (hx : x.isNaN = false) :
    c.descriptor.min ≤ c.descriptor.clamp x :=
  Scalar.le_limit c.ends.2.2 hx

/-- A number that is limited is finite. -/
theorem finite_clamp (c : Control) (hx : x.isNaN = false) : Finite (c.descriptor.clamp x) :=
  Scalar.isFinite_of_le_of_le c.ends.1 c.ends.2.1 (c.le_clamp hx) (Scalar.limit_le c.ends.2.2 hx)

/-- Containment in the range of a control, by its two ends. -/
theorem contains_iff (c : Control) (x : Float32) :
    c.descriptor.contains x = true ↔ c.descriptor.min ≤ x ∧ x ≤ c.descriptor.max := by
  simp [Parameter.Descriptor.contains]

/-- The rounded index of a control whose numbers are not negative. -/
theorem nearestIndex_clamp_mono (c : Control) (hmin : 0 ≤ c.descriptor.min) (h : x ≤ y) :
    nearestIndex (c.descriptor.clamp x) ≤ nearestIndex (c.descriptor.clamp y) := by
  -- what is limited to such a range is finite and not negative
  obtain ⟨hx, hy⟩ := Scalar.not_isNaN_of_le h
  have hzero : Finite (0 : Float32) := rfl
  have hnonneg : 0 ≤ c.descriptor.clamp x := by
    rw [le_iff hzero (c.finite_clamp hx)]
    exact ((le_iff hzero c.ends.1).mp hmin).trans
      ((le_iff c.ends.1 (c.finite_clamp hx)).mp (c.le_clamp hx))
  exact Scalar.nearestIndex_mono (c.finite_clamp hx) (c.finite_clamp hy) hnonneg (c.clamp_mono h)

/-- A larger number is never taken for a smaller value. -/
theorem flat_taken_mono (c : Control) (h : x ≤ y) : (c.taken x).flat ≤ (c.taken y).flat := by
  -- a ratio, the two choices, and the numbers
  cases c with
  | ratio => exact Ratio.ofValue_mono h
  | link =>
    simp only [taken, ControlValue.flat, LinkMode.index_ofIndex]
    exact ofNat_min_one_mono (link.nearestIndex_clamp_mono (by decide) h)
  | detection =>
    simp only [taken, ControlValue.flat, Detection.index_ofIndex]
    exact ofNat_min_one_mono (detection.nearestIndex_clamp_mono (by decide) h)
  | threshold | attack | release | makeup | knee | mix => exact clamp_mono _ h

/-- The indices of the controls are those below their count. -/
theorem exists_index {i : ℕ} (hi : i < 9) : ∃ c : Control, c.index = i := by
  have hmem : i ∈ all.map index := range_eq ▸ List.mem_range.mpr hi
  obtain ⟨c, -, hc⟩ := List.mem_map.mp hmem
  exact ⟨c, hc⟩

/-- There is no tenth control. -/
theorem ofIndex?_eq_none {i : ℕ} (hi : 9 ≤ i) : ofIndex? i = none :=
  List.getElem?_eq_none hi

end Control

namespace Settings

variable {s : Settings} {c c' : Control} {x y : Float32}

/-! ### The store laws, by control -/

/-- A set changes the value of its control and no other. -/
theorem value_set (s : Settings) (hx : x.isNaN = false) (c c' : Control) :
    (s.set c x).value c' = if c' = c then c.taken x else s.value c' := by
  rw [set, hx]
  cases c <;> cases c' <;> rfl

/-- What is read after a set is what the control takes. -/
theorem get_set_self (s : Settings) (hx : x.isNaN = false) (c : Control) :
    (s.set c x).get c = (c.taken x).flat := by
  rw [← flat_value, value_set s hx, if_pos rfl]

/-- A set of one control leaves what is read of another. -/
theorem get_set_of_ne (s : Settings) (hx : x.isNaN = false) (h : c' ≠ c) :
    (s.set c x).get c' = s.get c' := by
  rw [← flat_value, value_set s hx, if_neg h, flat_value]

/-- A later set of a control replaces an earlier one. -/
theorem set_set (s : Settings) (hx : x.isNaN = false) (hy : y.isNaN = false) (c : Control) :
    (s.set c x).set c y = s.set c y := by
  apply eq_of_value
  intro c'
  rw [value_set _ hy, value_set _ hy, value_set _ hx]
  split <;> rfl

/-- Sets of different controls commute. -/
theorem set_comm (s : Settings) (hx : x.isNaN = false) (hy : y.isNaN = false) (h : c' ≠ c) :
    (s.set c x).set c' y = (s.set c' y).set c x := by
  apply eq_of_value
  intro d
  rw [value_set _ hy, value_set _ hx, value_set _ hx, value_set _ hy]
  -- the first control, the second and all others
  by_cases hd : d = c
  · obtain rfl := hd
    rw [if_pos rfl, if_pos rfl, if_neg h.symm]
  · rw [if_neg hd, if_neg hd]

/-- A larger number is never read back as a smaller one. -/
theorem get_set_mono (s : Settings) (c : Control) (h : x ≤ y) :
    (s.set c x).get c ≤ (s.set c y).get c := by
  obtain ⟨hx, hy⟩ := Scalar.not_isNaN_of_le h
  rw [get_set_self s hx, get_set_self s hy]
  exact c.flat_taken_mono h

/-- The number of a valid setting is not NaN, and its control takes that setting for it. -/
theorem Valid.taken_get (hs : s.Valid) (c : Control) :
    (s.get c).isNaN = false ∧ c.taken (s.get c) = s.value c := by
  rcases hs.contains_get c with hcontains | ⟨rfl, hlimit⟩
  · obtain ⟨hge, hle⟩ := (c.contains_iff _).mp hcontains
    -- a number in the range stays when it is limited
    have hclamp : c.descriptor.clamp (s.get c) = s.get c := Scalar.limit_of_mem hge hle
    refine ⟨(Scalar.not_isNaN_of_le hge).2, ?_⟩
    cases c with
    | threshold | attack | release | makeup | knee | mix => exact congrArg _ hclamp
    | ratio =>
      rw [Control.taken, value]
      cases hr : s.ratio with
      | limit => rw [get, hr, Ratio.value, Ratio.ofValue_infinity]
      | finite r =>
        rw [get, hr] at hle hclamp ⊢
        have hne : r ≠ Scalar.infinity := by
          rintro rfl
          exact absurd hle (not_infinity_le rfl)
        rw [Ratio.value, Ratio.ofValue_of_ne hne]
        exact congrArg (ControlValue.ratio ∘ Ratio.finite) hclamp
    | link =>
      rw [Control.taken, hclamp]
      exact congrArg ControlValue.link s.link.ofIndex_nearestIndex
    | detection =>
      rw [Control.taken, hclamp]
      exact congrArg ControlValue.detection s.detection.ofIndex_nearestIndex
  -- the limit is read as infinity, which is taken for the limit
  · rw [get, value, hlimit]
    exact ⟨rfl, rfl⟩

/-- A number in the range of a control is stored as it is, unless the control is a choice. -/
theorem get_set_of_contains (s : Settings) {c : Control} (hc : c.descriptor.flags.stepped = false)
    (h : c.descriptor.contains x = true) : (s.set c x).get c = x := by
  obtain ⟨hge, hle⟩ := (c.contains_iff x).mp h
  have hclamp : c.descriptor.clamp x = x := Scalar.limit_of_mem hge hle
  rw [get_set_self s (Scalar.not_isNaN_of_le hge).2]
  -- a number is stored as it was limited, and here nothing was limited
  cases c with
  | threshold | attack | release | makeup | knee | mix => exact hclamp
  | ratio =>
    -- the limit is not in the range, so this ratio is a finite one
    have hne : x ≠ Scalar.infinity := by
      rintro rfl
      exact absurd hle (not_infinity_le rfl)
    rw [Control.taken, Ratio.ofValue_of_ne hne]
    exact hclamp
  | link | detection => exact nomatch hc

/-- Setting what was read changes nothing. -/
theorem Valid.set_get (hs : s.Valid) (c : Control) : s.set c (s.get c) = s := by
  obtain ⟨hnan, htaken⟩ := hs.taken_get c
  apply eq_of_value
  intro c'
  rw [value_set s hnan, htaken]
  split
  next h => rw [h]
  next => rfl

/-! ### The store laws, by index -/

open Parametric (parameter setParameter)

/-- The number at the index of a control is its flat value. -/
theorem parameter_index (s : Settings) (c : Control) : parameter s c.index = s.get c := by
  show ((Control.ofIndex? c.index).map s.get).getD 0 = s.get c
  rw [Control.ofIndex?_index]
  rfl

/-- A set at the index of a control is a set of the control. -/
theorem setParameter_index (s : Settings) (c : Control) (x : Float32) :
    setParameter s c.index x = s.set c x := by
  show ((Control.ofIndex? c.index).map (s.set · x)).getD s = s.set c x
  rw [Control.ofIndex?_index]
  rfl

/-- Past the controls zero is read. -/
theorem parameter_of_le (s : Settings) {i : ℕ} (hi : 9 ≤ i) : parameter s i = 0 := by
  show ((Control.ofIndex? i).map s.get).getD 0 = 0
  rw [Control.ofIndex?_eq_none hi]
  rfl

/-- Past the controls nothing is set. -/
theorem setParameter_of_le (s : Settings) {i : ℕ} (hi : 9 ≤ i) (x : Float32) :
    setParameter s i x = s := by
  show ((Control.ofIndex? i).map (s.set · x)).getD s = s
  rw [Control.ofIndex?_eq_none hi]
  rfl

/-- Settings that pass the check are a store of nine numbers. A number that is set, be it infinite
or out of range, leaves them valid and the other numbers as they are. What is stored is what the
control takes for the number, and it is read back as such: a number in the range as it is, unless
the control is a choice. What is read can be set again without a change. A later set of an index
replaces an earlier one, sets of different indices commute, and a larger number is never read back
as a smaller one. -/
theorem setParameter_laws {s : Settings} (hs : s.validate = .ok ()) {i : ℕ} (hi : i < 9)
    {x : Float32} (hx : x.isNaN = false) :
    (setParameter s i x).validate = .ok () ∧
      (∃ c, Control.ofIndex? i = some c ∧ (setParameter s i x).value c = c.taken x ∧
        parameter (setParameter s i x) i = (c.taken x).flat ∧
        (c.descriptor.flags.stepped = false → c.descriptor.contains x = true →
          parameter (setParameter s i x) i = x)) ∧
      (∀ j, j ≠ i → parameter (setParameter s i x) j = parameter s j) ∧
      setParameter (setParameter s i x) i (parameter (setParameter s i x) i) =
        setParameter s i x ∧
      setParameter s i (parameter s i) = s ∧
      (∀ y : Float32, y.isNaN = false →
        setParameter (setParameter s i x) i y = setParameter s i y) ∧
      (∀ (j : ℕ) (y : Float32), j ≠ i → y.isNaN = false →
        setParameter (setParameter s i x) j y = setParameter (setParameter s j y) i x) ∧
      ∀ y : Float32, x ≤ y →
        parameter (setParameter s i x) i ≤ parameter (setParameter s i y) i := by
  have hvalid : s.Valid := (validate_eq_ok_iff s).mp hs
  have hset : (setParameter s i x).Valid := hvalid.setParameter i x
  refine ⟨(validate_eq_ok_iff _).mpr hset, ?_, ?_, ?_, ?_, ?_, ?_, ?_⟩
  -- an index below nine is that of a control, and the laws are those by control
  all_goals obtain ⟨c, rfl⟩ := Control.exists_index hi
  all_goals simp only [setParameter_index, parameter_index] at hset ⊢
  · refine ⟨c, Control.ofIndex?_index c, ?_, get_set_self s hx c, fun hc h => ?_⟩
    · rw [value_set s hx, if_pos rfl]
    · exact get_set_of_contains s hc h
  · intro j hj
    rcases Nat.lt_or_ge j 9 with hlt | hge
    · obtain ⟨c', rfl⟩ := Control.exists_index hlt
      rw [parameter_index, parameter_index]
      exact get_set_of_ne s hx (fun h => hj (congrArg _ h))
    · -- there is no such control
      rw [parameter_of_le _ hge, parameter_of_le _ hge]
  · exact hset.set_get c
  · exact hvalid.set_get c
  · intro y hy
    exact set_set s hx hy c
  -- the other index is that of another control, or of none
  · intro j y hj hy
    rcases Nat.lt_or_ge j 9 with hlt | hge
    · obtain ⟨c', rfl⟩ := Control.exists_index hlt
      rw [setParameter_index, setParameter_index]
      exact set_comm s hx hy (fun h => hj (congrArg _ h))
    · rw [setParameter_of_le _ hge, setParameter_of_le _ hge]
  · intro y h
    exact get_set_mono s c h

/-- The ratio set to infinity, which is stored as the limit, and to eight, which is read back. -/
theorem setParameter_laws_limit :
    (setParameter ({} : Settings) 1 Scalar.infinity).validate = .ok () ∧
      (setParameter ({} : Settings) 1 Scalar.infinity).value .ratio = .ratio .limit ∧
      setParameter (setParameter ({} : Settings) 1 Scalar.infinity) 1 Scalar.infinity =
        setParameter {} 1 Scalar.infinity ∧
      parameter (setParameter ({} : Settings) 1 8) 1 = 8 := by
  -- the default settings pass the check
  have hvalid : ({} : Settings).validate = .ok () := by rfl
  obtain ⟨hset, ⟨c, hc, hvalue, -⟩, -, hagain, -⟩ := setParameter_laws hvalid (i := 1) (by decide)
    (x := Scalar.infinity) (by decide)
  obtain rfl : c = .ratio := (Option.some.inj hc).symm
  obtain ⟨-, ⟨c', hc', -, -, hread⟩, -⟩ :=
    setParameter_laws hvalid (i := 1) (by decide) (x := 8) (by decide)
  obtain rfl : c' = .ratio := (Option.some.inj hc').symm
  exact ⟨hset, hvalue, hagain, hread rfl (by decide)⟩

end Settings

end DynamicRange
