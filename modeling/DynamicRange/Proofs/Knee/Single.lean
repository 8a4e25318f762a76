import DynamicRange.Knee
import DynamicRange.Proofs.Scalar.Exponential
import DynamicRange.Proofs.Settings.Bounds

/-!
# The static curve in single precision

The gain of the curve is a number for every level that is one. This takes more than that the steps
do not overflow: inside the knee the way into it is divided by its width, which rounding can make
zero. It is the order of the logarithms that keeps the curve out of such a knee, and that keeps the
way into any other knee between zero and one.

## Key results

- `Knee.sound_make`: the knee of valid settings
- `Knee.Sound.output_near`: the curve is not far above the identity
- `Knee.Sound.applied_bound`: the gain is a number for every level
-/

namespace DynamicRange

open Binary Scalar

namespace Knee

/-! ### The ends of the knee -/

/-- What rounding leaves of the order of the levels of a knee, and bounds for them. -/
structure Sound (k : Knee Float32) : Prop where
  linearStart_finite : Finite k.linearStart
  le_linearStart : 2 ^ (-12 : ℤ) ≤ value k.linearStart
  start_eq : k.start = ln k.linearStart
  start_finite : Finite k.start
  threshold_finite : Finite k.threshold
  stop_finite : Finite k.stop
  le_start : -8.4 ≤ value k.start
  start_le : value k.start ≤ value k.threshold
  threshold_nonpos : value k.threshold ≤ 0
  threshold_le : value k.threshold ≤ value k.stop
  stop_le : value k.stop ≤ 1.4
  ratio_allowed : k.ratio.Allowed
  compressedStop_eq : k.compressedStop = k.ratio.line k.threshold k.stop

/-- The root of a width, between one and three. -/
theorem sqrt_bounds {x : Float32} (hx : Finite x) (hge : 1 ≤ value x) (hle : value x ≤ 8) :
    Finite x.sqrt ∧ 1 ≤ value x.sqrt ∧ value x.sqrt ≤ 3 := by
  have hthree : IsNumber .binary32 3 := isNumber_intCast (n := 3) (by decide)
  refine sqrt_mem hx (by linarith) isNumber_one hthree (by norm_num) ?_ ?_ ?_ ?_ <;>
    norm_num <;> linarith

/-- Logarithms of a few numbers, which bound those of others. -/
private theorem near_ln_least : Near (ln (twoPow (-12))) (-(8721810 / 1048576)) 0 := by
  have hparts : unpacked (Float32.ofBits 0xc1051592) =
      .finite .negative 8721810 (-20) (by decide) := rfl
  exact near_of_toBits (by decide +kernel) hparts (by norm_num [signed])

/-- The logarithm of four is its bit pattern's number. -/
private theorem near_ln_four : Near (ln (twoPow 2)) (11629080 / 8388608) 0 := by
  have hparts : unpacked (Float32.ofBits 0x3fb17218) =
      .finite .positive 11629080 (-23) (by decide) := rfl
  exact near_of_toBits (by decide +kernel) hparts (by norm_num [signed])

section Make

variable {threshold root : Float32} (hthreshold : Finite threshold)
  (hge : 0.0009765 ≤ value threshold) (hle : value threshold ≤ 1) (hroot : Finite root)
  (hroot_ge : 1 ≤ value root) (hroot_le : value root ≤ 3)
include hthreshold hge hle hroot hroot_ge hroot_le

/-- The lower end of the knee is a number from `2 ^ -12` up to the threshold. -/
theorem linearStart_bounds : Finite (threshold / root) ∧
    2 ^ (-12 : ℤ) ≤ value (threshold / root) ∧ value (threshold / root) ≤ value threshold := by
  norm_num at hge
  have hquotient_le : value threshold / value root ≤ value threshold :=
    div_le_self (by linarith) hroot_ge
  -- the least threshold, divided by a root of three, is still above `2 ^ -12`
  have hquotient_ge : 2 ^ (-12 : ℤ) ≤ value threshold / value root := by
    rw [le_div_iff₀ (by linarith)]
    norm_num
    linarith
  have habs : |value threshold / value root| ≤ 2 ^ (0 : ℤ) :=
    abs_le.mpr ⟨by norm_num at hquotient_ge ⊢; linarith, by norm_num; linarith⟩
  have hrounds := div_rounds hthreshold hroot (by linarith : value root ≠ 0)
    (nearest_lt_overflow habs (by decide))
  -- the bounds are numbers of the format, and rounding keeps them
  exact ⟨hrounds.finite, hrounds.mem (isNumber_zpow (by decide)) hthreshold.isNumber hquotient_ge
    hquotient_le⟩

/-- The upper end of the knee is a number from the threshold up to four. -/
theorem linearStop_bounds : Finite (threshold * root) ∧
    value threshold ≤ value (threshold * root) ∧ value (threshold * root) ≤ 2 ^ (2 : ℤ) := by
  norm_num at hge
  have hpos : 0 ≤ value threshold := by linarith
  have hproduct_ge : value threshold ≤ value threshold * value root :=
    le_mul_of_one_le_right hpos hroot_ge
  -- the threshold is at most one and the root at most three
  have hproduct_le : value threshold * value root ≤ 2 ^ (2 : ℤ) :=
    (mul_le_mul hle hroot_le (by linarith) (by norm_num)).trans (by norm_num)
  have habs : |value threshold * value root| ≤ 2 ^ (2 : ℤ) :=
    abs_le.mpr ⟨by norm_num; linarith, hproduct_le⟩
  have hrounds := mul_rounds hthreshold hroot (nearest_lt_overflow habs (by decide))
  exact ⟨hrounds.finite, hrounds.mem hthreshold.isNumber (isNumber_zpow (by decide)) hproduct_ge
    hproduct_le⟩

end Make

/-- The levels at the ends are around the threshold, and the logarithms keep that order. -/
theorem sound_make {s : Settings} (h : s.Valid) : (make s.threshold s.ratio s.knee).Sound := by
  -- the levels first, threshold, root and ends, then their logarithms
  obtain ⟨hthreshold, hge, hle⟩ := h.threshold_bounds
  obtain ⟨hknee, hknee_ge, hknee_le⟩ := h.knee_bounds
  obtain ⟨hroot, hroot_ge, hroot_le⟩ := sqrt_bounds hknee hknee_ge hknee_le
  obtain ⟨hstart, hstart_ge, hstart_le⟩ :=
    linearStart_bounds hthreshold hge hle hroot hroot_ge hroot_le
  obtain ⟨hstop, hstop_ge, hstop_le⟩ :=
    linearStop_bounds hthreshold hge hle hroot hroot_ge hroot_le
  -- the constants that the logarithms are compared with
  obtain ⟨hleast, hleast'⟩ := twoPow_spec (k := -12) (by decide) (by decide)
  obtain ⟨hfour, hfour'⟩ := twoPow_spec (k := 2) (by decide) (by decide)
  have hnormal : (2 : ℚ) ^ (-126 : ℤ) ≤ 2 ^ (-12 : ℤ) := by norm_num
  have hnormal' := hnormal.trans hstart_ge
  -- the logarithm is monotone, so the order of the ends carries over and constants bound them
  obtain ⟨-, hlnStart, hln₁⟩ := ln_mono hleast hstart (hleast' ▸ hnormal) (hleast' ▸ hstart_ge)
  obtain ⟨-, hlnThreshold, hln₂⟩ := ln_mono hstart hthreshold hnormal' hstart_le
  obtain ⟨-, -, hln₃⟩ := ln_mono hthreshold near_one.finite (hnormal'.trans hstart_le)
    (near_one.value_eq ▸ hle)
  obtain ⟨-, hlnStop, hln₄⟩ := ln_mono hthreshold hstop (hnormal'.trans hstart_le) hstop_ge
  obtain ⟨-, -, hln₅⟩ := ln_mono hstop hfour (hnormal'.trans (hstart_le.trans hstop_ge))
    (hfour' ▸ hstop_le)
  rw [near_ln_least.value_eq] at hln₁
  rw [near_ln_one.value_eq] at hln₃
  rw [near_ln_four.value_eq] at hln₅
  exact
    { linearStart_finite := hstart
      le_linearStart := hstart_ge
      start_eq := rfl
      start_finite := hlnStart
      threshold_finite := hlnThreshold
      stop_finite := hlnStop
      le_start := le_trans (by norm_num) hln₁
      start_le := hln₂
      threshold_nonpos := hln₃
      threshold_le := hln₄
      stop_le := hln₅.trans (by norm_num)
      ratio_allowed := h.allowed_ratio
      compressedStop_eq := rfl }

end Knee

/-! ### The line -/

namespace Ratio

variable {ratio : Ratio Float32} (hratio : ratio.Allowed)
include hratio

/-- The line lies between the threshold and the identity. -/
theorem Allowed.near_line {threshold x : Float32} (hthreshold : Finite threshold) (hx : Finite x)
    (hle : |Binary.value threshold| ≤ 8.4)
    (hdiff : |Binary.value x - Binary.value threshold| ≤ 98) :
    ∃ l, Near (ratio.line threshold x) l 3e-5 ∧
      min (Binary.value x) (Binary.value threshold) ≤ l ∧
        l ≤ max (Binary.value x) (Binary.value threshold) := by
  cases hr : ratio with
  | finite r =>
    obtain ⟨hfinite, hone⟩ := hratio r hr
    -- the difference, the quotient and the sum are each rounded once
    have hsub := (near_value hx).sub (near_value hthreshold) hdiff 7 (by norm_num) (by norm_num)
    have hr' := near_value hfinite
    have hnear := near_value hthreshold
    generalize Binary.value x = X at hdiff hsub ⊢
    generalize Binary.value threshold = T at hle hdiff hsub hnear ⊢
    generalize Binary.value r = R at hone hr'
    have hpos : 0 < R := zero_lt_one.trans_le hone
    have hquotient : |(X - T) / R| ≤ 98 := by
      rw [abs_div, abs_of_pos hpos]
      exact (div_le_self (abs_nonneg _) hone).trans hdiff
    have haway : 1 + 0 ≤ |R| := by rwa [add_zero, abs_of_pos hpos]
    have hdiv := (hsub.div hr' haway zero_lt_one hquotient 7 (by norm_num) (by norm_num)).mono
      (show _ ≤ (1e-5 : ℚ) by norm_num)
    have hsum := abs_add_le_of_le (D := 106.4) hquotient hle (by norm_num)
    refine ⟨_, (hdiv.add hnear hsum 7 (by norm_num) (by norm_num)).mono (by norm_num), ?_⟩
    -- division by one or more moves the difference toward zero, on either side
    rcases le_total T X with hTX | hXT
    · have hnonneg : 0 ≤ (X - T) / R := div_nonneg (sub_nonneg.mpr hTX) hpos.le
      have hle : (X - T) / R ≤ X - T := div_le_self (sub_nonneg.mpr hTX) hone
      rw [min_eq_right hTX, max_eq_left hTX]
      constructor <;> linarith
    · have hnonneg : 0 ≤ (T - X) / R := div_nonneg (sub_nonneg.mpr hXT) hpos.le
      have hle : (T - X) / R ≤ T - X := div_le_self (sub_nonneg.mpr hXT) hone
      have hneg : (X - T) / R = -((T - X) / R) := by rw [← neg_div, neg_sub]
      rw [min_eq_left hXT, max_eq_right hXT, hneg]
      constructor <;> linarith
  | limit =>
    exact ⟨Binary.value threshold, (near_value hthreshold).mono (by norm_num), min_le_right ..,
      le_max_right ..⟩

/-- The slope of a ratio is a number between zero and one. -/
theorem Allowed.slope_bounds : Finite ratio.slope ∧ 0 ≤ Binary.value ratio.slope ∧
    Binary.value ratio.slope ≤ 1 := by
  cases hr : ratio with
  | finite r =>
    obtain ⟨hfinite, hone⟩ := hratio r hr
    have hpos : 0 < Binary.value r := zero_lt_one.trans_le hone
    have hnonneg : 0 ≤ 1 / Binary.value r := by positivity
    have hle : 1 / Binary.value r ≤ 1 := div_le_one_of_le₀ hone hpos.le
    have hvalue := near_one.value_eq
    have hrounds := div_rounds near_one.finite hfinite hpos.ne' (by
      rw [hvalue]
      exact nearest_lt_overflow_of_unit hnonneg hle)
    rw [hvalue] at hrounds
    -- zero and one are numbers of the format, and rounding keeps the bounds
    exact ⟨hrounds.finite, hrounds.mem isNumber_zero isNumber_one hnonneg hle⟩
  | limit =>
    -- a limit has the slope zero
    have hzero := near_zero.value_eq
    exact ⟨near_zero.finite, hzero.ge, hzero.le.trans zero_le_one⟩

end Ratio

/-! ### Inside the knee -/

/-- Products of numbers between zero and one. -/
theorem mul_unit {x y : Float32} (hx : Finite x) (hy : Finite y)
    (hx' : 0 ≤ value x ∧ value x ≤ 1) (hy' : 0 ≤ value y ∧ value y ≤ 1) :
    Finite (x * y) ∧ 0 ≤ value (x * y) ∧ value (x * y) ≤ 1 := by
  have hnonneg : 0 ≤ value x * value y := mul_nonneg hx'.1 hy'.1
  have hle : value x * value y ≤ 1 := mul_le_one₀ hx'.2 hy'.1 hy'.2
  have hrounds := mul_rounds hx hy (nearest_lt_overflow_of_unit hnonneg hle)
  exact ⟨hrounds.finite, hrounds.mem isNumber_zero isNumber_one hnonneg hle⟩

/-- The way into a knee is not longer than all of it, also when both are rounded. -/
theorem way_le {x start stop : Float32} (hx : Finite x) (hstart : Finite start)
    (hstop : Finite stop) (hge : value start ≤ value x) (hle : value x ≤ value stop)
    (hwidth : value stop - value start ≤ 2 ^ (4 : ℤ)) :
    Rounds (x - start) (value x - value start) ∧ Rounds (stop - start) (value stop - value start) ∧
      0 ≤ value (x - start) ∧ value (x - start) ≤ value (stop - start) := by
  have hnonneg : 0 ≤ value x - value start := sub_nonneg.mpr hge
  have hway_le : value x - value start ≤ value stop - value start := by linarith
  have hway := sub_rounds hx hstart (nearest_lt_overflow (k := 4)
    (by rw [abs_of_nonneg hnonneg]; exact hway_le.trans hwidth) (by decide))
  have hall := sub_rounds hstop hstart (nearest_lt_overflow (k := 4)
    (by rw [abs_of_nonneg (hnonneg.trans hway_le)]; exact hwidth) (by decide))
  refine ⟨hway, hall, ?_, ?_⟩
  · rw [hway.value_eq]
    exact le_nearest isNumber_zero hnonneg
  · rw [hway.value_eq, hall.value_eq]
    exact nearest_mono hway_le

/-- The way into a knee that has an inside, as a share of its width. -/
theorem way_bounds {x start stop : Float32} (hx : Finite x) (hstart : Finite start)
    (hstop : Finite stop) (hge : value start ≤ value x) (hlt : value x < value stop)
    (hwidth : value stop - value start ≤ 2 ^ (4 : ℤ)) :
    0 < value (stop - start) ∧ Finite ((x - start) / (stop - start)) ∧
      0 ≤ value ((x - start) / (stop - start)) ∧ value ((x - start) / (stop - start)) ≤ 1 := by
  obtain ⟨hway, hall, hway_nonneg, hway_le⟩ := way_le hx hstart hstop hge hlt.le hwidth
  -- two numbers differ by the least number at least, so the width is not rounded to zero
  have hleast := hstart.isNumber.le_sub hstop.isNumber (hge.trans_lt hlt)
  have hpos : 0 < value (stop - start) := by
    rw [hall.value_eq]
    exact (zpow_pos two_pos _).trans_le (le_nearest (isNumber_zpow (le_refl _)) hleast)
  have hshare_nonneg := div_nonneg hway_nonneg hpos.le
  have hshare_le := div_le_one_of_le₀ hway_le hpos.le
  have hrounds := div_rounds hway.finite hall.finite hpos.ne'
    (nearest_lt_overflow_of_unit hshare_nonneg hshare_le)
  exact ⟨hpos, hrounds.finite, hrounds.mem isNumber_zero isNumber_one hshare_nonneg hshare_le⟩

/-- The number three is not rounded. -/
theorem near_three : Near 3 3 0 := by
  have h : unpacked (3 : Float32) = .finite .positive 12582912 (-22) (by decide) := rfl
  exact near_of_unpacked h (by norm_num [signed])

/-- The number minus three is not rounded. -/
theorem near_neg_three : Near (-3) (-3) 0 := by
  have h : unpacked (-3 : Float32) = .finite .negative 12582912 (-22) (by decide) := rfl
  exact near_of_unpacked h (by norm_num [signed])

section Cubic

variable {p₀ p₁ m₀ m₁ t : Float32} {P₀ P₁ M₀ M₁ T : ℚ}

/-- The coefficients of the cubic. -/
private theorem near_coefficients (hp₀ : Near p₀ P₀ 0) (hp₁ : Near p₁ P₁ 0) (hm₀ : Near m₀ M₀ 0)
    (hm₁ : Near m₁ M₁ 0) (hP₀ : |P₀| ≤ 8.4) (hP₁ : |P₁| ≤ 8.5) (hM₀ : |M₀| ≤ 9.82)
    (hM₁ : |M₁| ≤ 9.82) :
    (Near (-3 * p₀ - 2 * m₀ + 3 * p₁ - m₁) (-3 * P₀ - 2 * M₀ + 3 * P₁ - M₁) 2e-5 ∧
      |-3 * P₀ - 2 * M₀ + 3 * P₁ - M₁| ≤ 80.2) ∧
      Near (2 * p₀ + m₀ - 2 * p₁ + m₁) (2 * P₀ + M₀ - 2 * P₁ + M₁) 1e-5 ∧
      |2 * P₀ + M₀ - 2 * P₁ + M₁| ≤ 53.5 := by
  have h₂ : |(2 : ℚ)| ≤ 2 := (abs_of_pos two_pos).le
  have h₃ : |(3 : ℚ)| ≤ 3 := by norm_num
  have h₃' : |(-3 : ℚ)| ≤ 3 := by norm_num
  -- the multiples of the ends and slopes, with their roundings and their sizes
  have h3p₁ := near_three.mul hp₁ h₃ hP₁ 5 (by norm_num) (by norm_num)
  have h3p₀ := near_neg_three.mul hp₀ h₃' hP₀ 5 (by norm_num) (by norm_num)
  have h2p₀ := near_two.mul hp₀ h₂ hP₀ 5 (by norm_num) (by norm_num)
  have h2p₁ := near_two.mul hp₁ h₂ hP₁ 5 (by norm_num) (by norm_num)
  have h2m₀ := near_two.mul hm₀ h₂ hM₀ 5 (by norm_num) (by norm_num)
  have hB3p₁ := abs_mul_le_of_le (D := 25.5) h₃ hP₁ (by norm_num)
  have hB3p₀ := abs_mul_le_of_le (D := 25.2) h₃' hP₀ (by norm_num)
  have hB2p₀ := abs_mul_le_of_le (D := 16.8) h₂ hP₀ (by norm_num)
  have hB2p₁ := abs_mul_le_of_le (D := 17) h₂ hP₁ (by norm_num)
  have hB2m₀ := abs_mul_le_of_le (D := 19.64) h₂ hM₀ (by norm_num)
  constructor
  -- the coefficient of the square is added up from the left
  · have hB₁ : |-3 * P₀ - 2 * M₀| ≤ 44.84 :=
      (abs_sub _ _).trans ((add_le_add hB3p₀ hB2m₀).trans (by norm_num))
    have hB₂ := abs_add_le_of_le (D := 70.34) hB₁ hB3p₁ (by norm_num)
    have hB₃ : |-3 * P₀ - 2 * M₀ + 3 * P₁ - M₁| ≤ 80.2 :=
      (abs_sub _ _).trans ((add_le_add hB₂ hM₁).trans (by norm_num))
    have h₁ := h3p₀.sub h2m₀ hB₁ 6 (by norm_num) (by norm_num)
    have h₂ := h₁.add h3p₁ hB₂ 7 (by norm_num) (by norm_num)
    exact ⟨(h₂.sub hm₁ hB₃ 7 (by norm_num) (by norm_num)).mono (by norm_num), hB₃⟩
  -- the coefficient of the cube is added up from the left
  · have hB₁ := abs_add_le_of_le (D := 26.62) hB2p₀ hM₀ (by norm_num)
    have hB₂ : |2 * P₀ + M₀ - 2 * P₁| ≤ 43.62 :=
      (abs_sub _ _).trans ((add_le_add hB₁ hB2p₁).trans (by norm_num))
    have hB₃ := abs_add_le_of_le (D := 53.5) hB₂ hM₁ (by norm_num)
    have h₁ := h2p₀.add hm₀ hB₁ 5 (by norm_num) (by norm_num)
    have h₂ := h₁.sub h2p₁ hB₂ 6 (by norm_num) (by norm_num)
    exact ⟨(h₂.add hm₁ hB₃ 6 (by norm_num) (by norm_num)).mono (by norm_num), hB₃⟩

/-- The cubic, by its coefficients. -/
private theorem near_cubic {c₂ c₃ t₂ t₃ : Float32} {C₂ C₃ T₂ T₃ : ℚ} (hc₂ : Near c₂ C₂ 2e-5)
    (hc₃ : Near c₃ C₃ 1e-5) (hC₂ : |C₂| ≤ 80.2) (hC₃ : |C₃| ≤ 53.5) (hm₀ : Near m₀ M₀ 0)
    (hM₀ : |M₀| ≤ 9.82) (hp₀ : Near p₀ P₀ 0) (hP₀ : |P₀| ≤ 8.4) (ht : Near t T 0) (hT : |T| ≤ 1)
    (ht₂ : Near t₂ T₂ 0) (hT₂ : |T₂| ≤ 1) (ht₃ : Near t₃ T₃ 0) (hT₃ : |T₃| ≤ 1) :
    Near (c₃ * t₃ + c₂ * t₂ + m₀ * t + p₀) (C₃ * T₃ + C₂ * T₂ + M₀ * T + P₀) 1e-4 ∧
      |C₃ * T₃ + C₂ * T₂ + M₀ * T + P₀| ≤ 152 := by
  -- the three products, each with the error of its coefficient and its own
  have h₃ := (hc₃.mul ht₃ hC₃ hT₃ 6 (by norm_num) (by norm_num)).mono
    (show _ ≤ (1.3e-5 : ℚ) by norm_num)
  have h₂ := (hc₂.mul ht₂ hC₂ hT₂ 7 (by norm_num) (by norm_num)).mono
    (show _ ≤ (2.4e-5 : ℚ) by norm_num)
  have h₁ := (hm₀.mul ht hM₀ hT 4 (by norm_num) (by norm_num)).mono
    (show _ ≤ (5e-7 : ℚ) by norm_num)
  have hB₃ := abs_mul_le_of_le (D := 53.5) hC₃ hT₃ (by norm_num)
  have hB₂ := abs_mul_le_of_le (D := 80.2) hC₂ hT₂ (by norm_num)
  have hB₁ := abs_mul_le_of_le (D := 9.82) hM₀ hT (by norm_num)
  -- the sums, with the sizes that tell how much each of them rounds
  have hS₂ := abs_add_le_of_le (D := 133.7) hB₃ hB₂ (by norm_num)
  have hS₁ := abs_add_le_of_le (D := 143.52) hS₂ hB₁ (by norm_num)
  have hS₀ := abs_add_le_of_le (D := 152) hS₁ hP₀ (by norm_num)
  have hs₂ := (h₃.add h₂ hS₂ 8 (by norm_num) (by norm_num)).mono
    (show _ ≤ (4.5e-5 : ℚ) by norm_num)
  have hs₁ := (hs₂.add h₁ hS₁ 8 (by norm_num) (by norm_num)).mono
    (show _ ≤ (6e-5 : ℚ) by norm_num)
  exact ⟨(hs₁.add hp₀ hS₀ 8 (by norm_num) (by norm_num)).mono (by norm_num), hS₀⟩

end Cubic

/-- A coefficient up to a bound, multiplied by a share, is up to the bound. -/
private theorem mul_le_of_unit {c t B : ℚ} (hc : c ≤ B) (hB : 0 ≤ B) (ht : 0 ≤ t ∧ t ≤ 1) :
    c * t ≤ B :=
  (mul_le_mul_of_nonneg_right hc ht.1).trans (mul_le_of_le_one_right hB ht.2)

/-- Each term of the cubic but the constant one is at most its coefficient. -/
private theorem cubic_le {P₀ P₁ M₀ M₁ T T₂ T₃ : ℚ} (hP₀ : -8.4 ≤ P₀ ∧ P₀ ≤ 0)
    (hP₁ : -8.5 ≤ P₁ ∧ P₁ ≤ 1.5) (hM₀ : -0.01 ≤ M₀ ∧ M₀ ≤ 9.82) (hM₁ : -0.01 ≤ M₁ ∧ M₁ ≤ 9.82)
    (hT : 0 ≤ T ∧ T ≤ 1) (hT₂ : 0 ≤ T₂ ∧ T₂ ≤ 1) (hT₃ : 0 ≤ T₃ ∧ T₃ ≤ 1) :
    (2 * P₀ + M₀ - 2 * P₁ + M₁) * T₃ + (-3 * P₀ - 2 * M₀ + 3 * P₁ - M₁) * T₂ + M₀ * T + P₀ ≤
      P₀ + 77 := by
  norm_num at hP₀ hP₁ hM₀ hM₁
  -- the largest values that the coefficients can have
  have h₃ := mul_le_of_unit (B := 36.65) (c := 2 * P₀ + M₀ - 2 * P₁ + M₁)
    (by norm_num; linarith) (by norm_num) hT₃
  have h₂ := mul_le_of_unit (B := 29.75) (c := -3 * P₀ - 2 * M₀ + 3 * P₁ - M₁)
    (by norm_num; linarith) (by norm_num) hT₂
  have h₁ := mul_le_of_unit (B := 9.82) (c := M₀) (by norm_num; linarith) (by norm_num) hT
  norm_num at h₁ h₂ h₃
  linarith

/-- A slope at an end of the knee, in units of the width. -/
private theorem slope_mul_bounds {slope w : Float32} (hslope : Finite slope)
    (h : 0 ≤ value slope ∧ value slope ≤ 1) (hw : Finite w) (hnonneg : 0 ≤ value w)
    (hle : |value w| ≤ 9.81) :
    Finite (slope * w) ∧ |value (slope * w)| ≤ 9.82 ∧ -0.01 ≤ value (slope * w) := by
  have hσ : |value slope| ≤ 1 := abs_le.mpr ⟨by linarith, h.2⟩
  -- one product of a share and the width
  have hm := (near_value hslope).mul (near_value hw) hσ hle 4 (by norm_num) (by norm_num)
  have hprod := abs_mul_le_of_le (D := 9.81) hσ hle (by norm_num)
  refine ⟨hm.finite, (hm.abs_value_le hprod).trans (by norm_num), ?_⟩
  have herror := (abs_le.mp hm.error).1
  have hprod_nonneg := mul_nonneg h.1 hnonneg
  norm_num at herror ⊢
  linarith

/-- The cubic from `start` on is above the identity by less than its coefficients. -/
private theorem hermite_bound {x start stop p₁ slope : Float32} (hx : Finite x)
    (hstart : Finite start) (hstop : Finite stop) (hp₁ : Finite p₁) (hslope : Finite slope)
    (hstart_ge : -8.4 ≤ value start) (hstart_le : value start ≤ 0) (hstop_le : value stop ≤ 1.4)
    (hge : value start ≤ value x) (hlt : value x < value stop) (hp₁_ge : -8.5 ≤ value p₁)
    (hp₁_le : value p₁ ≤ 1.5) (hslope' : 0 ≤ value slope ∧ value slope ≤ 1) :
    Finite (hermite x start stop start p₁ 1 slope) ∧
      |value (hermite x start stop start p₁ 1 slope)| ≤ 160 ∧
      value (hermite x start stop start p₁ 1 slope) ≤ value x + 78 := by
  -- the ends are less than ten apart
  have hwidth : value stop - value start ≤ 9.8 := by
    norm_num at hstart_ge hstop_le ⊢
    linarith
  have hwidth_nonneg : 0 ≤ value stop - value start := by linarith
  have hwidth' : |value stop - value start| ≤ 9.8 := by rwa [abs_of_nonneg hwidth_nonneg]
  obtain ⟨hwpos, ht, ht'⟩ := way_bounds hx hstart hstop hge hlt (hwidth.trans (by norm_num))
  have hw := (near_value hstop).sub (near_value hstart) hwidth' 4 (by norm_num) (by norm_num)
  unfold hermite
  dsimp only
  generalize (x - start) / (stop - start) = t at ht ht' ⊢
  generalize stop - start = w at hw hwpos ⊢
  -- the powers of the way are between zero and one
  obtain ⟨ht₂, ht₂'⟩ := mul_unit ht ht ht' ht'
  obtain ⟨ht₃, ht₃'⟩ := mul_unit ht₂ ht ht₂' ht'
  generalize t * t * t = t₃ at ht₃ ht₃' ⊢
  generalize t * t = t₂ at ht₂ ht₂' ⊢
  -- the slopes are up to the width
  have hW : |value w| ≤ 9.81 := (hw.abs_value_le hwidth').trans (by norm_num)
  have hone : 0 ≤ value (1 : Float32) ∧ value (1 : Float32) ≤ 1 := by
    rw [near_one.value_eq]
    exact ⟨zero_le_one, le_rfl⟩
  obtain ⟨hm₀, hM₀, hM₀_ge⟩ := slope_mul_bounds near_one.finite hone hw.finite hwpos.le hW
  obtain ⟨hm₁, hM₁, hM₁_ge⟩ := slope_mul_bounds hslope hslope' hw.finite hwpos.le hW
  have hP₀ : |value start| ≤ 8.4 := abs_le.mpr ⟨hstart_ge, hstart_le.trans (by norm_num)⟩
  have hP₁ : |value p₁| ≤ 8.5 := abs_le.mpr ⟨hp₁_ge, hp₁_le.trans (by norm_num)⟩
  obtain ⟨⟨hc₂, hC₂⟩, hc₃, hC₃⟩ := near_coefficients (near_value hstart) (near_value hp₁)
    (near_value hm₀) (near_value hm₁) hP₀ hP₁ hM₀ hM₁
  have hunit {v : ℚ} (h : 0 ≤ v ∧ v ≤ 1) : |v| ≤ 1 := abs_le.mpr ⟨by linarith, h.2⟩
  obtain ⟨hcubic, hcubic'⟩ := near_cubic hc₂ hc₃ hC₂ hC₃ (near_value hm₀) hM₀
    (near_value hstart) hP₀ (near_value ht) (hunit ht') (near_value ht₂) (hunit ht₂')
    (near_value ht₃) (hunit ht₃')
  -- the exact cubic is above the start by 77 at most, and rounding adds less than one
  refine ⟨hcubic.finite, (hcubic.abs_value_le hcubic').trans (by norm_num), ?_⟩
  have hle := cubic_le ⟨hstart_ge, hstart_le⟩ ⟨hp₁_ge, hp₁_le⟩ ⟨hM₀_ge, (abs_le.mp hM₀).2⟩
    ⟨hM₁_ge, (abs_le.mp hM₁).2⟩ ht' ht₂' ht₃'
  have herror := (abs_le.mp hcubic.error).2
  norm_num at herror
  linarith

/-! ### The curve -/

namespace Knee

/-- The logarithm of the greatest number is its bit pattern's number. -/
private theorem near_ln_greatest : Near (ln (Float32.ofBits 0x7f7fffff)) (11629080 / 131072) 0 := by
  have hparts : unpacked (Float32.ofBits 0x42b17218) =
      .finite .positive 11629080 (-17) (by decide) := rfl
  exact near_of_toBits (by decide +kernel) hparts (by norm_num [signed])

/-- No number has a logarithm above that of the greatest one. -/
private theorem ln_le {x : Float32} (hx : Finite x) (h : 2 ^ (-126 : ℤ) ≤ value x) :
    value (ln x) ≤ 89 := by
  obtain ⟨-, hlt, hvalue⟩ := word_of_normal hx h
  obtain ⟨hgreatest, hgreatest'⟩ := ofBits_spec (b := 0x7f7fffff) (by decide)
  -- in the order of words the greatest number is the last
  have hle : value x ≤ value (Float32.ofBits 0x7f7fffff) := by
    rw [hvalue, hgreatest', strictMono_wordValue.le_iff_le]
    exact Nat.le_of_lt_succ hlt
  obtain ⟨-, -, hln⟩ := ln_mono hx hgreatest h hle
  exact hln.trans (near_ln_greatest.value_eq.le.trans (by norm_num))

variable {k : Knee Float32} (h : k.Sound)
include h

/-- The output at the upper end of the knee is a number between -8.5 and 1.5. -/
theorem Sound.compressedStop_bounds : Finite k.compressedStop ∧ -8.5 ≤ value k.compressedStop ∧
    value k.compressedStop ≤ 1.5 := by
  have hstart := h.le_start
  have hle := h.start_le
  have hnonpos := h.threshold_nonpos
  have hstop := h.threshold_le
  have hstop_le := h.stop_le
  norm_num at hstart hstop_le
  have hthreshold : |value k.threshold| ≤ 8.4 :=
    abs_le.mpr ⟨by norm_num; linarith, by norm_num; linarith⟩
  have hdiff : |value k.stop - value k.threshold| ≤ 98 :=
    abs_le.mpr ⟨by linarith, by linarith⟩
  -- there the line is between the threshold and the identity
  obtain ⟨l, hl, hge, hle'⟩ :=
    h.ratio_allowed.near_line h.threshold_finite h.stop_finite hthreshold hdiff
  rw [← h.compressedStop_eq] at hl
  rw [min_eq_right hstop] at hge
  rw [max_eq_left hstop] at hle'
  have herror := abs_le.mp hl.error
  norm_num at herror ⊢
  exact ⟨hl.finite, by linarith, by linarith⟩

/-- From the lower end on the curve is not far above the identity. -/
theorem Sound.output_bound {x : Float32} (hx : Finite x) (hge : value k.start ≤ value x)
    (hle : value x ≤ 89) : Finite (k.output x) ∧ |value (k.output x)| ≤ 160 ∧
      value (k.output x) ≤ value x + 78 := by
  have hstart := h.le_start
  have hstart_le := h.start_le
  have hnonpos := h.threshold_nonpos
  unfold output
  split
  next hinside =>
    -- inside the knee it is the cubic, outside it the line
    obtain ⟨hp₁, hp₁_ge, hp₁_le⟩ := h.compressedStop_bounds
    obtain ⟨hslope, hslope'⟩ := h.ratio_allowed.slope_bounds
    exact hermite_bound hx h.start_finite h.stop_finite hp₁ hslope hstart
      (hstart_le.trans hnonpos) h.stop_le hge ((lt_iff hx h.stop_finite).mp hinside.2) hp₁_ge hp₁_le
      hslope'
  next =>
    norm_num at hstart
    have hthreshold : |value k.threshold| ≤ 8.4 :=
      abs_le.mpr ⟨by norm_num; linarith, by norm_num; linarith⟩
    have hdiff : |value x - value k.threshold| ≤ 98 := abs_le.mpr ⟨by linarith, by linarith⟩
    obtain ⟨l, hl, hge', hle'⟩ :=
      h.ratio_allowed.near_line h.threshold_finite hx hthreshold hdiff
    have herror := abs_le.mp hl.error
    -- the threshold is less than nine above the level
    have hmax : max (value x) (value k.threshold) ≤ value x + 9 :=
      max_le (by linarith) (by linarith)
    have hmin : -9 ≤ min (value x) (value k.threshold) := le_min (by linarith) (by linarith)
    norm_num at herror
    exact ⟨hl.finite, abs_le.mpr ⟨by linarith, by linarith⟩, by linarith⟩

/-- The logarithm of a level above the lower end, in the units of the curve. -/
theorem Sound.levelLog_bounds (detection : Detection) {level : Float32}
    (hlevel : Finite level) (hlt : value k.linearStart ≤ value level) :
    Finite (levelLog detection level) ∧ value k.start ≤ value (levelLog detection level) ∧
      value (levelLog detection level) ≤ 89 := by
  have hnormal : (2 : ℚ) ^ (-126 : ℤ) ≤ value k.linearStart :=
    le_trans (by norm_num) h.le_linearStart
  obtain ⟨-, hln, hge⟩ := ln_mono h.linearStart_finite hlevel hnormal hlt
  have hle := ln_le hlevel (hnormal.trans hlt)
  rw [← h.start_eq] at hge
  cases detection with
  | peak => exact ⟨hln, hge, hle⟩
  | rms =>
    -- halving moves the logarithm toward zero, and the lower end is below zero
    have hnonpos := h.start_le.trans h.threshold_nonpos
    have hhalf : value (0.5 : Float32) = 1 / 2 := near_half.value_eq
    have hstart := h.le_start
    norm_num at hstart
    have hge' : value k.start ≤ value (ln level) * value (0.5 : Float32) := by
      rw [hhalf]
      linarith
    have hle' : value (ln level) * value (0.5 : Float32) ≤ 89 := by
      rw [hhalf]
      linarith
    have habs : |value (ln level) * value (0.5 : Float32)| ≤ 2 ^ (7 : ℤ) :=
      abs_le.mpr ⟨by norm_num; linarith, hle'.trans (by norm_num)⟩
    have hrounds := mul_rounds hln near_half.finite (nearest_lt_overflow habs (by decide))
    have htop : IsNumber .binary32 89 := isNumber_intCast (n := 89) (by decide)
    exact ⟨hrounds.finite, hrounds.mem h.start_finite.isNumber htop hge' hle'⟩

/-- A finite level has a gain that is a number, and leaves room for the make-up gain. -/
theorem Sound.applied_bound (detection : Detection) {level : Float32} (hlevel : Finite level) :
    Finite (k.applied detection level) ∧ |value (k.applied detection level)| ≤ 2 ^ (120 : ℤ) := by
  unfold applied
  split
  next hengages =>
    have hlt := (lt_iff h.linearStart_finite hlevel).mp hengages.2
    obtain ⟨hx, hge, hle⟩ := h.levelLog_bounds detection hlevel hlt.le
    -- the curve is not far above the identity, so the exponential does not overflow
    obtain ⟨houtput, habs, habove⟩ := h.output_bound hx hge hle
    have habs := abs_le.mp habs
    have hdiff : |value (k.output (levelLog detection level)) -
        value (levelLog detection level)| ≤ 249 :=
      abs_le.mpr ⟨by linarith, by linarith⟩
    have hsub := (near_value houtput).sub (near_value hx) hdiff 8 (by norm_num) (by norm_num)
    have herror := (abs_le.mp hsub.error).2
    norm_num at herror
    exact exp_bound hsub.finite (by linarith)
  next =>
    exact ⟨near_one.finite, (near_one.abs_value_le (abs_one (α := ℚ)).le).trans (by norm_num)⟩

end Knee

end DynamicRange
