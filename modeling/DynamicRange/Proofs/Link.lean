import DynamicRange.Link
import DynamicRange.Proofs.Scalar.Accumulation
import DynamicRange.Proofs.Scalar.Exponential

/-!
# Detector inputs that are numbers

The channels of a detector sample are summed before they are divided, and the magnitude is squared
under `rms`. Both can overflow for samples that are numbers. They do not while the samples stay
below a power of two, and the largest magnitude alone never does.

## Key results

- `finite_detectorInput_of_le`: samples up to `2 ^ 63`
- `finite_detectorInput_of_maximum_peak`: the modes that do not overflow
- `finite_detectorInput_of_unit`: samples up to full scale
-/

namespace DynamicRange

open Binary

variable {channels : List Float32}

/-! ### The largest magnitude -/

/-- Zero has the value zero. -/
private theorem value_zero : value (0 : Float32) = 0 := near_zero.value_eq

/-- The larger of two numbers is one of them. -/
private theorem larger_cases (x y : Float32) :
    Scalar.larger x y = x ∨ Scalar.larger x y = y := by
  unfold Scalar.larger
  split
  · exact .inr rfl
  · exact .inl rfl

/-- What holds of zero and of all magnitudes holds of the largest. -/
private theorem foldl_larger {p : Float32 → Prop} (channels : List Float32) {peak : Float32}
    (hpeak : p peak) (h : ∀ x ∈ channels, p x.abs) :
    p (channels.foldl (fun peak x => Scalar.larger peak x.abs) peak) := by
  induction channels generalizing peak with
  | nil => exact hpeak
  | cons x xs ih =>
    -- the larger of the peak so far and the next magnitude is one of the two
    apply ih
    · show p (Scalar.larger peak x.abs)
      rcases larger_cases peak x.abs with heq | heq
      · rwa [heq]
      · rw [heq]
        exact h x List.mem_cons_self
    · intro y hy
      exact h y (List.mem_cons_of_mem _ hy)

/-- The magnitude of the channels alone, not squared, does not overflow. -/
theorem finite_detectorInput_of_maximum_peak (h : ∀ x ∈ channels, Finite x) :
    Finite (detectorInput .maximum .peak channels) :=
  foldl_larger channels near_zero.finite fun x hx => (abs_exact (h x hx)).1

/-! ### The mean magnitude -/

/-- A sum of magnitudes up to a power of two. -/
private theorem foldl_sum_mem {k : ℤ} (hk : -126 ≤ k ∧ k < 104)
    (h : ∀ x ∈ channels, Finite x ∧ |value x| ≤ 2 ^ k) :
    Finite (channels.foldl (fun sum x => sum + x.abs) (-0.0)) ∧
      0 ≤ value (channels.foldl (fun sum x => sum + x.abs) (-0.0)) ∧
      value (channels.foldl (fun sum x => sum + x.abs) (-0.0)) ≤
        accumulated .binary32 (2 ^ k) channels.length := by
  have hmin : Float.Model.Format.binary32.minExponent = -149 := rfl
  have hbits : (Float.Model.Format.binary32.mantissaBits : ℤ) = 24 := rfl
  have hmax : overflow .binary32 = 128 := rfl
  have hstart : Finite (-0.0 : Float32) ∧ value (-0.0 : Float32) = 0 := ⟨rfl, rfl⟩
  -- each term is a magnitude, between zero and the power of two
  have hterms : ∀ x ∈ channels, Finite x.abs ∧ 0 ≤ value x.abs ∧ value x.abs ≤ 2 ^ k := by
    intro x hx
    obtain ⟨hfinite, hbound⟩ := h x hx
    obtain ⟨habs, hvalue⟩ := abs_exact hfinite
    rw [hvalue]
    exact ⟨habs, abs_nonneg _, hbound⟩
  obtain ⟨hsum, hge, hle⟩ := foldl_add_mem (g := Float32.abs) (k := k + 24) hstart.1 hstart.2
    le_rfl (by rw [hbits, add_sub_cancel_right]) (by omega) (by omega) hterms
  exact ⟨hsum, (accumulated_nonneg le_rfl _).trans hge, hle⟩

/-- The largest of magnitudes up to a bound. -/
private theorem maximum_bounds {B : ℚ} (hB : 0 ≤ B) (h : ∀ x ∈ channels, Finite x ∧ |value x| ≤ B) :
    Finite (LinkMode.maximum.combine channels) ∧
      |value (LinkMode.maximum.combine channels)| ≤ B := by
  have hzero : |value (0 : Float32)| ≤ B := by rwa [value_zero, abs_zero]
  refine foldl_larger (p := fun x => Finite x ∧ |value x| ≤ B) channels
    ⟨near_zero.finite, hzero⟩ fun x hx => ?_
  obtain ⟨hfinite, hbound⟩ := h x hx
  obtain ⟨habs, hvalue⟩ := abs_exact hfinite
  exact ⟨habs, by rwa [hvalue, abs_abs]⟩

/-- The channels combined, by either mode, are not larger than the largest sample. -/
private theorem combine_bounds (mode : LinkMode) (hne : channels ≠ [])
    (hlen : channels.length ≤ 2 ^ 24) (h : ∀ x ∈ channels, Finite x ∧ |value x| ≤ 2 ^ (63 : ℤ)) :
    Finite (mode.combine channels) ∧ |value (mode.combine channels)| ≤ 2 ^ (63 : ℤ) := by
  cases mode with
  | maximum => exact maximum_bounds (by positivity) h
  | average =>
    -- the mean: the sum is not above the number of channels times the bound
    obtain ⟨hsum, hge, hle⟩ := foldl_sum_mem (by decide) h
    rw [accumulated_zpow (by decide) hlen] at hle
    have hcount : (0 : ℚ) < channels.length := by exact_mod_cast List.length_pos_iff.mpr hne
    obtain ⟨hlength, hexact⟩ := ofNat_exact hlen
    have hmean_ge : 0 ≤ value (channels.foldl (fun sum x => sum + x.abs) (-0.0)) /
        value (Float32.ofNat channels.length) := by
      rw [hexact]
      exact div_nonneg hge hcount.le
    have hmean_le : value (channels.foldl (fun sum x => sum + x.abs) (-0.0)) /
        value (Float32.ofNat channels.length) ≤ 2 ^ (63 : ℤ) := by
      rw [hexact, div_le_iff₀ hcount, mul_comm]
      exact hle
    have habs := (abs_of_nonneg hmean_ge).le.trans hmean_le
    -- the quotient is rounded, but not across zero or the bound
    have hrounds := div_rounds hsum hlength (by rw [hexact]; exact hcount.ne')
      (nearest_lt_overflow habs (by decide))
    obtain ⟨hmean_ge, hmean_le⟩ :=
      hrounds.mem isNumber_zero (isNumber_zpow (by decide)) hmean_ge hmean_le
    exact ⟨hrounds.finite, (abs_of_nonneg hmean_ge).le.trans hmean_le⟩

/-- A magnitude up to `2 ^ 63` leaves room for its square. -/
private theorem finite_detect (detection : Detection) {x : Float32} (hx : Finite x)
    (hbound : |value x| ≤ 2 ^ (63 : ℤ)) : Finite (detection.detect x) := by
  cases detection with
  | peak => exact hx
  | rms =>
    have hsquare : |value x * value x| ≤ 2 ^ (126 : ℤ) :=
      abs_mul_le_of_le hbound hbound (by norm_num)
    exact (mul_bound hx hx hsquare (by decide)).1

/-- Samples up to `2 ^ 63` leave room for the sum and the square. -/
theorem finite_detectorInput_of_le (mode : LinkMode) (detection : Detection) (hne : channels ≠ [])
    (hlen : channels.length ≤ 2 ^ 24) (h : ∀ x ∈ channels, Finite x ∧ |value x| ≤ 2 ^ (63 : ℤ)) :
    Finite (detectorInput mode detection channels) :=
  have hbounds := combine_bounds mode hne hlen h
  finite_detect detection hbounds.1 hbounds.2

/-! ### Full scale -/

/-- Samples up to full scale leave room for the sum and the square, for any number of channels. -/
theorem finite_detectorInput_of_unit (mode : LinkMode) (detection : Detection)
    (hne : channels ≠ []) (hlen : channels.length < 2 ^ 64)
    (h : ∀ x ∈ channels, Finite x ∧ |value x| ≤ 1) :
    Finite (detectorInput mode detection channels) := by
  cases mode with
  | maximum =>
    obtain ⟨hfinite, hbound⟩ := maximum_bounds zero_le_one h
    exact finite_detect detection hfinite (hbound.trans (by norm_num))
  | average =>
    obtain ⟨hsum, hge, hle⟩ := foldl_sum_mem (k := 0) (by decide)
      (by simpa only [zpow_zero] using h)
    -- however many they are, the sum stands still at `2 ^ 24`
    have hstill := hle.trans (accumulated_le_zpow (k := 24) (by decide) le_rfl _)
    -- the number of channels is rounded, but not below one
    have hlength := ofNat_rounds (hlen.le.trans (by norm_num))
    have hone : 1 ≤ value (Float32.ofNat channels.length) := by
      rw [hlength.value_eq]
      exact le_nearest isNumber_one (by exact_mod_cast List.length_pos_iff.mpr hne)
    have hquotient := div_nonneg hge (zero_le_one.trans hone)
    have habs : |value (channels.foldl (fun sum x => sum + x.abs) (-0.0)) /
        value (Float32.ofNat channels.length)| ≤ 2 ^ (24 : ℤ) := by
      rw [abs_of_nonneg hquotient]
      exact (div_le_self hge hone).trans hstill
    have hrounds := div_rounds hsum hlength.finite (zero_lt_one.trans_le hone).ne'
      (nearest_lt_overflow habs (by decide))
    -- the mean of the channels is then not above `2 ^ 24`, whose square does not overflow
    have hmean := abs_nearest_le (f := .binary32) (isNumber_zpow (by decide)) habs
    rw [← hrounds.value_eq] at hmean
    exact finite_detect detection hrounds.finite (hmean.trans (by norm_num))

end DynamicRange
