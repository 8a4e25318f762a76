import Mathlib
import DynamicRange.Proofs.Scalar.Logarithm

/-!
# How far the logarithm is off

The computed logarithm is compared with the real one. Three things separate them: the polynomial,
the two parts of the logarithm of two, and the rounding, of which that of the last step is the
largest. So the error is given by a power of two that the result stays below.

## Key results

- `abs_lnFraction_sub_log_le`: the polynomial
- `abs_ln_sub_log_le`: the computed logarithm
- `Rounds.abs_log_sub_log_le`: what rounding an argument does to its logarithm
-/

namespace DynamicRange.Binary

open Scalar

/-! ### The polynomial -/

/-- A power of the ratio of a reduced number. -/
private theorem abs_ratio_pow_le {s : ℝ} (h : |s| ≤ 8579 / 50000) (n : ℕ) :
    |s ^ n| ≤ (8579 / 50000) ^ n := by
  rw [abs_pow]
  gcongr

/-- Five terms of the series. -/
private theorem abs_series_sub_log_le {s : ℝ} (h : |s| ≤ 8579 / 50000) :
    |s + s ^ 3 / 3 + s ^ 5 / 5 + s ^ 7 / 7 + s ^ 9 / 9 - 1 / 2 * Real.log ((1 + s) / (1 - s))| ≤
      4e-9 := by
  have hseries := Real.sum_range_sub_log_div_le (h.trans_lt (by norm_num)) 5
  have hrest : |s| ^ 11 / (1 - s ^ 2) ≤ 4e-9 := by
    -- the rest of the series, a power of the ratio over a divisor near one
    have hsquare := (abs_le.mp (abs_ratio_pow_le h 2)).2
    have hpow := abs_ratio_pow_le h 11
    rw [abs_pow] at hpow
    have hden : 0 < 1 - s ^ 2 := by
      norm_num at hsquare
      linarith
    rw [div_le_iff₀ hden]
    norm_num at hsquare hpow ⊢
    linarith
  have hseries := abs_le.mp (hseries.trans hrest)
  norm_num [Finset.sum_range_succ] at hseries
  rw [abs_le]
  norm_num
  constructor <;> linarith

/-- The polynomial is the series of the logarithm, but for small changes in its coefficients. -/
theorem abs_lnFraction_sub_log_le {u : ℚ} (h : Reduced u) :
    |(lnFraction u : ℝ) - Real.log (1 + u)| ≤ 1.6e-8 := by
  obtain ⟨s, hs⟩ : ∃ s, u / (2 + u) = s := ⟨_, rfl⟩
  have hsmall := h.abs_ratio_le
  have hpos := h.two_add_pos
  rw [hs] at hsmall
  norm_num at hsmall
  have hsmall : |(s : ℝ)| ≤ 8579 / 50000 := by
    have hcast := (Rat.cast_le (K := ℝ)).mpr hsmall
    push_cast at hcast
    exact hcast
  -- the ratio is chosen so that the series is that of one plus the fraction
  have hratio : (1 + (s : ℝ)) / (1 - s) = 1 + u := by
    have hpos' : (0 : ℝ) < 2 + u := by exact_mod_cast hpos
    have hcast : (s : ℝ) = u / (2 + u) := by
      rw [← hs]
      push_cast
      rfl
    rw [hcast]
    field_simp
    ring
  have hpoly : (lnFraction u : ℝ) = 2 * s + 5592405 / 8388608 * (s : ℝ) ^ 3 +
      13422099 / 33554432 * (s : ℝ) ^ 5 + 4781303 / 16777216 * (s : ℝ) ^ 7 +
        8146707 / 33554432 * (s : ℝ) ^ 9 := by
    rw [lnFraction, hs, lnTail]
    push_cast
    ring
  -- the coefficients are not quite those of the series, so each power has a difference of its own
  have hseries := abs_series_sub_log_le hsmall
  rw [hratio] at hseries
  have hseries := abs_le.mp hseries
  have h₃ := abs_le.mp (abs_ratio_pow_le hsmall 3)
  have h₅ := abs_le.mp (abs_ratio_pow_le hsmall 5)
  have h₇ := abs_le.mp (abs_ratio_pow_le hsmall 7)
  have h₉ := abs_le.mp (abs_ratio_pow_le hsmall 9)
  norm_num at hseries h₃ h₅ h₇ h₉
  rw [hpoly, abs_le]
  norm_num
  constructor <;> linarith

/-- The two parts of the logarithm of two. -/
theorem abs_lnTwo_sub_log_le : |((lnTwoHigh + lnTwoLow : ℚ) : ℝ) - Real.log 2| ≤ 5e-10 := by
  have hgt := Real.log_two_gt_d9
  have hlt := Real.log_two_lt_d9
  rw [lnTwoHigh, lnTwoLow, abs_le]
  push_cast
  norm_num at hgt hlt ⊢
  constructor <;> linarith

/-! ### The split of an argument -/

/-- The exponent and the fraction make up the number. -/
theorem wordValue_eq_split {w : ℕ} (h : 2 ^ 23 ≤ w) :
    wordValue w = 2 ^ splitExponent w * (1 + splitFraction w) := by
  obtain ⟨r, hr⟩ : ∃ r, (w + 0x4afb0d) % 2 ^ 23 = r := ⟨_, rfl⟩
  obtain ⟨q, hq⟩ : ∃ q, (w + 0x4afb0d) / 2 ^ 23 = q := ⟨_, rfl⟩
  have hr' : ((w + 0x4afb0d : ℕ) : ℤ) % 2 ^ 23 = r := by exact_mod_cast hr
  have hq' : ((w + 0x4afb0d : ℕ) : ℤ) / 2 ^ 23 = q := by exact_mod_cast hq
  rw [splitExponent, splitFraction, splitUnits, hr', hq', wordValue, if_neg (by omega)]
  by_cases hneg : r < 0x4afb0d
  · -- the mantissa is above the root of two, so the exponent is one more
    have hexponent : ((w / 2 ^ 23 : ℕ) : ℤ) - 150 = (q : ℤ) - 127 - 24 := by omega
    have hm : ((2 ^ 23 + w % 2 ^ 23 : ℕ) : ℚ) = 2 ^ 24 + (r - 0x4afb0d) := by
      have hm : 2 ^ 23 + w % 2 ^ 23 + 0x4afb0d = 2 ^ 24 + r := by omega
      rw [add_sub, eq_sub_iff_add_eq]
      exact_mod_cast hm
    rw [if_pos (by omega), hm, hexponent, zpow_sub₀ two_ne_zero _ 24]
    push_cast
    norm_num
    ring
  -- below the root of two the mantissa is kept as it is
  · have hexponent : ((w / 2 ^ 23 : ℕ) : ℤ) - 150 = (q : ℤ) - 127 - 23 := by omega
    have hm : ((2 ^ 23 + w % 2 ^ 23 : ℕ) : ℚ) = 2 ^ 23 + (r - 0x4afb0d) := by
      have hm : 2 ^ 23 + w % 2 ^ 23 + 0x4afb0d = 2 ^ 23 + r := by omega
      rw [add_sub, eq_sub_iff_add_eq]
      exact_mod_cast hm
    rw [if_neg (by omega), hm, hexponent, zpow_sub₀ two_ne_zero _ 23]
    push_cast
    norm_num
    ring

/-! ### The computed logarithm -/

/-- What is rounded to less than a power of two was not more. -/
private theorem Rounds.abs_le_of_lt {z : Float32} {v : ℚ} {k : ℤ} (h : Rounds z v) (hk : -149 ≤ k)
    (hlt : |value z| < 2 ^ k) : |v| ≤ 2 ^ k := by
  have hnumber : IsNumber .binary32 (2 ^ k) := isNumber_zpow hk
  rw [h.value_eq] at hlt
  -- a power of two is a number, so a value beyond it would be rounded to it or beyond
  by_contra! hgt
  rcases lt_abs.mp hgt with hpos | hneg
  · exact absurd (le_nearest hnumber hpos.le) (not_le.mpr ((le_abs_self _).trans_lt hlt))
  · have hge := le_nearest hnumber hneg.le
    rw [nearest_neg] at hge
    exact absurd hge (not_le.mpr ((neg_le_abs _).trans_lt hlt))

/-- Against the polynomial there is the rounding alone. -/
private theorem abs_ln_sub_poly_le {x : Float32} (hx : Finite x) (h : 2 ^ (-126 : ℤ) ≤ value x)
    {k : ℤ} (hk : -125 ≤ k) (hlt : |value (ln x)| < 2 ^ k) :
    |value (ln x) - (lnFraction (splitFraction x.toBits.toNat) +
      splitExponent x.toBits.toNat * (lnTwoHigh + lnTwoLow))| ≤ 3.3e-8 + 2 ^ (k - 25) := by
  obtain ⟨hlow, hhigh, -⟩ := word_of_normal hx h
  obtain ⟨a, ha, hrounds⟩ := lnNormal_spec hlow hhigh
  have hj : |(splitExponent x.toBits.toNat : ℚ)| ≤ 128 := by
    exact_mod_cast abs_splitExponent_le hlow hhigh
  have hcorrected := abs_corrected_le (reduced_splitFraction x.toBits.toNat) hj ha
  -- both sums are rounded; the first is below a half, the second below the given power of two
  have hfirst := nearest_near hcorrected (by decide)
  rw [(ln_normal hx h).2] at hlt ⊢
  have hlast := abs_le.mp (hrounds.near (hrounds.abs_le_of_lt (by omega) hlt) hk)
  have hfirst := abs_le.mp hfirst
  have ha := abs_le.mp ha
  rw [abs_le]
  norm_num at hfirst ha ⊢
  constructor <;> linarith

/-- The computed logarithm and the real one. -/
theorem abs_ln_sub_log_le {x : Float32} (hx : Finite x) (h : 2 ^ (-126 : ℤ) ≤ value x) {k : ℤ}
    (hk : -125 ≤ k) (hlt : |value (ln x)| < 2 ^ k) :
    |(value (ln x) : ℝ) - Real.log (value x)| ≤ 1.2e-7 + 2 ^ (k - 25) := by
  obtain ⟨hlow, hhigh, hvalue⟩ := word_of_normal hx h
  have hcomputed := abs_ln_sub_poly_le hx h hk hlt
  have hreduced := reduced_splitFraction x.toBits.toNat
  have hj : |(splitExponent x.toBits.toNat : ℝ)| ≤ 128 := by
    exact_mod_cast abs_splitExponent_le hlow hhigh
  have hsplit := hvalue.trans (wordValue_eq_split hlow)
  generalize splitFraction x.toBits.toNat = u at hcomputed hreduced hsplit
  generalize splitExponent x.toBits.toNat = j at hcomputed hj hsplit
  have hcomputed' := (Rat.cast_le (K := ℝ)).mpr hcomputed
  have hpos : (0 : ℝ) < 1 + u := by
    have hlow := hreduced.1
    norm_num at hlow
    have hpos : 0 < 1 + u := by linarith
    exact_mod_cast hpos
  have hlog : Real.log (value x) = j * Real.log 2 + Real.log (1 + u) := by
    rw [hsplit]
    push_cast
    rw [Real.log_mul (by positivity) hpos.ne', Real.log_zpow]
  -- three errors: of the operations, of the polynomial, and `j` times that of the logarithm of two
  have hpoly := abs_lnFraction_sub_log_le hreduced
  have htwo : |j * (((lnTwoHigh + lnTwoLow : ℚ) : ℝ) - Real.log 2)| ≤ 6.4e-8 := by
    rw [abs_mul]
    refine (mul_le_mul hj abs_lnTwo_sub_log_le (abs_nonneg _) (by norm_num)).trans (by norm_num)
  push_cast at hcomputed' htwo
  rw [hlog]
  rw [abs_le] at hcomputed' hpoly htwo ⊢
  norm_num at hcomputed' hpoly htwo ⊢
  constructor <;> linarith

/-! ### Rounded arguments -/

/-- The logarithms of positive numbers that are near each other. -/
theorem abs_log_sub_log_le {a b : ℝ} (hb : 0 < b) (h : |a - b| ≤ 2 ^ (-24 : ℤ) * b) :
    |Real.log a - Real.log b| ≤ 6e-8 := by
  obtain ⟨hlow, hhigh⟩ := abs_le.mp h
  norm_num at hlow hhigh
  have ha : 0 < a := by linarith
  -- the logarithm is at most its argument less one, in both directions
  have hle : Real.log a - Real.log b ≤ 6e-8 := by
    rw [← Real.log_div ha.ne' hb.ne']
    refine (Real.log_le_sub_one_of_pos (div_pos ha hb)).trans ?_
    rw [sub_le_iff_le_add, div_le_iff₀ hb]
    norm_num
    linarith
  have hge : Real.log b - Real.log a ≤ 6e-8 := by
    rw [← Real.log_div hb.ne' ha.ne']
    refine (Real.log_le_sub_one_of_pos (div_pos hb ha)).trans ?_
    rw [sub_le_iff_le_add, div_le_iff₀ ha]
    norm_num
    linarith
  exact abs_le.mpr ⟨by linarith, hle⟩

/-- What rounding does to the logarithm of a normal number. -/
theorem Rounds.abs_log_sub_log_le {z : Float32} {v : ℚ} (h : Rounds z v)
    (hv : 2 ^ (-126 : ℤ) ≤ v) : |Real.log (value z) - Real.log v| ≤ 6e-8 := by
  have hpos : 0 < v := (zpow_pos two_pos _).trans_le hv
  have hmin : Float.Model.Format.binary32.minExponent = -149 := rfl
  have hbits : Float.Model.Format.binary32.mantissaBits = 24 := rfl
  -- a normal number is moved by a share of itself
  have hmove := abs_nearest_sub_le_div (f := .binary32) (v := v) (by
    rw [hmin, hbits, abs_of_pos hpos]
    exact hv)
  rw [← h.value_eq, hbits, abs_of_pos hpos] at hmove
  have hshare : v / (2 ^ 24 + 1) ≤ 2 ^ (-24 : ℤ) * v := by
    norm_num
    linarith
  have hmove' := (Rat.cast_le (K := ℝ)).mpr (hmove.trans hshare)
  push_cast at hmove'
  exact Binary.abs_log_sub_log_le (by exact_mod_cast hpos) hmove'

end DynamicRange.Binary
