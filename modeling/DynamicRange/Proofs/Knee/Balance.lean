import Mathlib
import DynamicRange.Proofs.Knee.Domain
import DynamicRange.Proofs.Scalar.RealLogarithm

/-!
# The threshold in the middle of the knee

The ends of the knee are a quotient and a product of the threshold with one root, so that the
logarithm of the threshold is half-way between those of the ends. In single precision it is so but
for a few roundings. The curve depends on it: at its upper end the knee meets a line through the
threshold, and whether the cubic in between stays below the identity is decided by where that is.

## Key results

- `Knee.balanced_make`: the logarithms of a knee of valid settings
-/

namespace DynamicRange

open Binary Scalar

namespace Knee

/-- The threshold is half-way between the ends of the knee, but for rounding. -/
structure Balanced (k : Knee Float32) : Prop where
  le_start : -7.99 ≤ value k.start
  stop_le : value k.stop ≤ 1.06
  width_le : value k.stop - value k.start ≤ 2.12
  middle : |value k.threshold - (value k.start + value k.stop) / 2| ≤ 7.8e-7
  hard : k.isHard = true → value k.threshold ≤ value k.start

/-! ### The least and the greatest level of a knee -/

/-- The logarithm of the least lower end is its bit pattern's number. -/
private theorem near_ln_lowest :
    Near (ln (Float32.ofBits 0x39b20000)) (-(16752077 / 2097152)) 0 := by
  have hparts : unpacked (Float32.ofBits 0xc0ff9dcd) =
      .finite .negative 16752077 (-21) (by decide) := rfl
  exact near_of_toBits (by decide +kernel) hparts (by norm_num [signed])

/-- The logarithm of the greatest upper end is its bit pattern's number. -/
private theorem near_ln_highest : Near (ln (Float32.ofBits 0x40380000)) (8858812 / 8388608) 0 := by
  have hparts : unpacked (Float32.ofBits 0x3f872cbc) =
      .finite .positive 8858812 (-23) (by decide) := rfl
  exact near_of_toBits (by decide +kernel) hparts (by norm_num [signed])

/-- The root of the widest knee is below 2.875. -/
private theorem sqrt_le {x : Float32} (hx : Finite x) (hge : 1 ≤ value x) (hle : value x ≤ 8) :
    value x.sqrt ≤ 23 / 8 := by
  -- 2.875 is a number of the format, and its square is above eight
  have hnumber : IsNumber .binary32 (23 / 8) := ⟨23, -3, by decide, by decide, by norm_num⟩
  refine (sqrt_mem hx (by linarith) isNumber_one hnumber (by norm_num) ?_ ?_ ?_ ?_).2.2 <;>
    norm_num <;> linarith

/-! ### The ends -/

section Make

variable {threshold root : Float32} (hthreshold : Finite threshold)
  (hge : 0.0009765 ≤ value threshold) (hle : value threshold ≤ 1) (hroot : Finite root)
  (hroot_ge : 1 ≤ value root) (hroot_le : value root ≤ 23 / 8)
include hthreshold hge hle hroot hroot_ge hroot_le

/-- The lower end is a rounded quotient, with a logarithm of at least -7.99. -/
private theorem linearStart_rounds :
    Rounds (threshold / root) (value threshold / value root) ∧
      -7.99 ≤ value (ln (threshold / root)) := by
  norm_num at hge
  -- the quotient is at most one, so that nothing overflows
  have hquotient : value threshold / value root ≤ 1 :=
    (div_le_self (by linarith) hroot_ge).trans hle
  have hpos : 0 ≤ value threshold / value root := div_nonneg (by linarith) (by linarith)
  have hrounds := div_rounds hthreshold hroot (by linarith : value root ≠ 0)
    (nearest_lt_overflow_of_unit hpos hquotient)
  obtain ⟨hleast, hleast'⟩ := ofBits_spec (b := 0x39b20000) (by decide)
  -- the least threshold over the greatest root is still above this number
  have hvalue : wordValue 0x39b20000 ≤ value threshold / value root := by
    rw [le_div_iff₀ (by linarith)]
    norm_num [wordValue]
    linarith
  have hlow : value (Float32.ofBits 0x39b20000) ≤ value (threshold / root) := by
    rw [hrounds.value_eq]
    exact le_nearest hleast.isNumber (hleast'.le.trans hvalue)
  have hnormal : (2 : ℚ) ^ (-126 : ℤ) ≤ wordValue 0x39b20000 := by norm_num [wordValue]
  -- the logarithm keeps the order of the two
  obtain ⟨-, -, hln⟩ := ln_mono hleast hrounds.finite (hnormal.trans_eq hleast'.symm) hlow
  rw [near_ln_lowest.value_eq] at hln
  exact ⟨hrounds, le_trans (by norm_num) hln⟩

/-- The upper end is a rounded product, with a logarithm of at most 1.06. -/
private theorem linearStop_rounds :
    Rounds (threshold * root) (value threshold * value root) ∧
      value (ln (threshold * root)) ≤ 1.06 := by
  norm_num at hge
  -- the product is between the threshold and the greatest root
  have hproduct_ge : value threshold ≤ value threshold * value root :=
    le_mul_of_one_le_right (by linarith) hroot_ge
  have hproduct : value threshold * value root ≤ 23 / 8 :=
    (mul_le_mul hle hroot_le (by linarith) zero_le_one).trans_eq (one_mul _)
  have habs : |value threshold * value root| ≤ 2 ^ (2 : ℤ) :=
    abs_le.mpr ⟨by norm_num; linarith, by norm_num; linarith⟩
  have hrounds := mul_rounds hthreshold hroot (nearest_lt_overflow habs (by decide))
  obtain ⟨hmost, hmost'⟩ := ofBits_spec (b := 0x40380000) (by decide)
  -- the greatest root is below this number
  have hvalue : 23 / 8 ≤ wordValue 0x40380000 := by norm_num [wordValue]
  have hhigh : value (threshold * root) ≤ value (Float32.ofBits 0x40380000) := by
    rw [hrounds.value_eq]
    exact nearest_le hmost.isNumber (hproduct.trans (hvalue.trans hmost'.ge))
  have hlow : value threshold ≤ value (threshold * root) := by
    rw [hrounds.value_eq]
    exact le_nearest hthreshold.isNumber hproduct_ge
  -- the product is at least the threshold, and so far from the least numbers
  have hnormal : (2 : ℚ) ^ (-126 : ℤ) ≤ value (threshold * root) :=
    le_trans (by norm_num; linarith) hlow
  obtain ⟨-, -, hln⟩ := ln_mono hrounds.finite hmost hnormal hhigh
  rw [near_ln_highest.value_eq] at hln
  exact ⟨hrounds, hln.trans (by norm_num)⟩

end Make

/-- A computed logarithm that is not large, of a rounded number. -/
private theorem abs_ln_sub_log_le_of_rounds {z : Float32} {v : ℚ} (h : Rounds z v)
    (hv : 2 ^ (-126 : ℤ) ≤ v) (hln : |value (ln z)| < 8) :
    |(value (ln z) : ℝ) - Real.log v| ≤ 4.2e-7 := by
  -- the rounded number is normal, because the bound is a number of the format
  have hnormal : 2 ^ (-126 : ℤ) ≤ value z := by
    rw [h.value_eq]
    exact le_nearest (isNumber_zpow (by decide)) hv
  have hcomputed := abs_ln_sub_log_le h.finite hnormal (k := 3) (by decide) (by norm_num [hln])
  have hrounded := h.abs_log_sub_log_le hv
  -- the error of the logarithm and that of the rounding before it
  rw [abs_le] at hcomputed hrounded ⊢
  norm_num at hcomputed hrounded ⊢
  constructor <;> linarith

/-- The root of the widest knee, as a real logarithm. -/
private theorem log_root_le {r : ℚ} (hge : 1 ≤ r) (hle : r ≤ 23 / 8) :
    Real.log r ≤ 1.0577 := by
  have hge' : (1 : ℝ) ≤ r := by exact_mod_cast hge
  have hle' : (r : ℝ) ≤ 23 / 8 := by
    have hcast := (Rat.cast_le (K := ℝ)).mpr hle
    push_cast at hcast
    exact hcast
  -- by the tangent at the base of the logarithm
  have hbase := Real.exp_one_gt_d9
  have htangent := Real.log_le_sub_one_of_pos (div_pos (zero_lt_one.trans_le hge') (Real.exp_pos 1))
  rw [Real.log_div (by positivity) (by positivity), Real.log_exp] at htangent
  have hquotient : (r : ℝ) / Real.exp 1 ≤ 1.0577 := by
    rw [div_le_iff₀ (Real.exp_pos 1)]
    norm_num at hbase ⊢
    linarith
  linarith

/-- The logarithms of the three levels: the root moves that of the threshold by the same amount
both ways. -/
private theorem near_log_ends {threshold root : Float32} (hthreshold : Finite threshold)
    (hge : 0.0009765 ≤ value threshold) (hle : value threshold ≤ 1) (hroot : Finite root)
    (hroot_ge : 1 ≤ value root) (hroot_le : value root ≤ 23 / 8)
    (hstart_le : value (ln (threshold / root)) ≤ value (ln threshold))
    (hle_stop : value (ln threshold) ≤ value (ln (threshold * root))) :
    |(value (ln (threshold / root)) : ℝ) -
        (Real.log (value threshold) - Real.log (value root))| ≤ 4.2e-7 ∧
      |(value (ln threshold) : ℝ) - Real.log (value threshold)| ≤ 3.6e-7 ∧
      |(value (ln (threshold * root)) : ℝ) -
        (Real.log (value threshold) + Real.log (value root))| ≤ 4.2e-7 := by
  obtain ⟨hstart, hstart_ge⟩ := linearStart_rounds hthreshold hge hle hroot hroot_ge hroot_le
  obtain ⟨hstop, hstop_le⟩ := linearStop_rounds hthreshold hge hle hroot hroot_ge hroot_le
  norm_num at hge hstart_ge hstop_le
  -- neither the threshold nor the root is zero
  have hT : (value threshold : ℝ) ≠ 0 := by
    have hne : value threshold ≠ 0 := by linarith
    exact_mod_cast hne
  have hR : (value root : ℝ) ≠ 0 := by
    have hne : value root ≠ 0 := by linarith
    exact_mod_cast hne
  -- all three levels are normal
  have hquotient : 2 ^ (-126 : ℤ) ≤ value threshold / value root := by
    rw [le_div_iff₀ (by linarith)]
    norm_num
    linarith
  have hproduct : value threshold ≤ value threshold * value root :=
    le_mul_of_one_le_right (by linarith) hroot_ge
  have hnormal : (2 : ℚ) ^ (-126 : ℤ) ≤ value threshold := by
    norm_num
    linarith
  -- the ends are rounded before their logarithms are taken, the threshold is not
  have hln_start := abs_ln_sub_log_le_of_rounds hstart hquotient
    (abs_lt.mpr ⟨by linarith, by linarith⟩)
  have hln := abs_ln_sub_log_le hthreshold hnormal (k := 3) (by decide)
    (abs_lt.mpr ⟨by norm_num; linarith, by norm_num; linarith⟩)
  have hln_stop := abs_ln_sub_log_le_of_rounds hstop (hnormal.trans hproduct)
    (abs_lt.mpr ⟨by linarith, by linarith⟩)
  push_cast at hln_start hln_stop
  rw [Real.log_div hT hR] at hln_start
  rw [Real.log_mul hT hR] at hln_stop
  exact ⟨hln_start, hln.trans (by norm_num), hln_stop⟩

/-- Without a width the lower end is the threshold. -/
private theorem threshold_le_start {s : Settings} (h : s.Valid) (hhard : s.knee ≤ 1) :
    value (ln s.threshold) ≤ value (ln (s.threshold / s.knee.sqrt)) := by
  obtain ⟨hthreshold, hge, hle⟩ := h.threshold_bounds
  obtain ⟨hknee, hknee_ge, -⟩ := h.knee_bounds
  -- a knee of one has the root one
  have hknee_le := (le_iff hknee near_one.finite).mp hhard
  rw [near_one.value_eq] at hknee_le
  obtain ⟨hroot, hroot_ge, hroot_le⟩ := sqrt_mem hknee (by linarith) isNumber_one isNumber_one
    zero_le_one (by norm_num; linarith) (by norm_num; linarith) (by norm_num) (by norm_num)
  obtain ⟨hstart, -⟩ := linearStart_rounds hthreshold hge hle hroot hroot_ge
    (hroot_le.trans (by norm_num))
  -- and so the quotient is the threshold itself
  rw [le_antisymm hroot_le hroot_ge, div_one] at hstart
  norm_num at hge
  exact (ln_mono hthreshold hstart.finite (by norm_num; linarith)
    (hstart.value_eq.trans (nearest_of_isNumber hthreshold.isNumber)).ge).2.2

/-- The knee of valid settings is balanced. -/
theorem balanced_make {s : Settings} (h : s.Valid) :
    (make s.threshold s.ratio s.knee).Balanced := by
  obtain ⟨hthreshold, hge, hle⟩ := h.threshold_bounds
  obtain ⟨hknee, hknee_ge, hknee_le⟩ := h.knee_bounds
  obtain ⟨hroot, hroot_ge, -⟩ := sqrt_bounds hknee hknee_ge hknee_le
  have hroot_le := sqrt_le hknee hknee_ge hknee_le
  have hsound := sound_make h
  obtain ⟨-, hstart_ge⟩ := linearStart_rounds hthreshold hge hle hroot hroot_ge hroot_le
  obtain ⟨-, hstop_le⟩ := linearStop_rounds hthreshold hge hle hroot hroot_ge hroot_le
  obtain ⟨hln_start, hln, hln_stop⟩ := near_log_ends hthreshold hge hle hroot hroot_ge hroot_le
    hsound.start_le hsound.threshold_le
  have hlog_le := log_root_le hroot_ge hroot_le
  -- the rest is arithmetic with the three errors
  rw [abs_le] at hln_start hln hln_stop
  norm_num at hln_start hln hln_stop hlog_le
  refine ⟨hstart_ge, hstop_le, ?width, ?middle,
    fun hhard => threshold_le_start h (of_decide_eq_true hhard)⟩
  -- twice the logarithm of the root, and the errors of both ends
  case width =>
    show value (ln (s.threshold * s.knee.sqrt)) - value (ln (s.threshold / s.knee.sqrt)) ≤ 2.12
    rw [← Rat.cast_le (K := ℝ)]
    push_cast
    norm_num
    linarith
  -- the logarithm of the root cancels in the middle
  case middle =>
    show |value (ln s.threshold) - (value (ln (s.threshold / s.knee.sqrt)) +
      value (ln (s.threshold * s.knee.sqrt))) / 2| ≤ 7.8e-7
    rw [← Rat.cast_le (K := ℝ)]
    push_cast
    rw [abs_le]
    norm_num
    constructor <;> linarith

end Knee

end DynamicRange
