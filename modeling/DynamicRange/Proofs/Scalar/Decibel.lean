import DynamicRange.Proofs.Scalar.Logarithm
import DynamicRange.Scalar.Decibel

/-!
# Gains in decibels

A gain that is not above one is not above zero decibels: the logarithm keeps the order, and that of
one is zero. What a gain is above one by rounding is not seen in the fourth place.

## Key results

- `decibelsOfGain_le`: the level of a gain that is not above one but for rounding
-/

namespace DynamicRange.Binary

open Scalar

/-! ### Logarithms of a few gains -/

/-- The least gain that is told in decibels, exactly. -/
private theorem near_least : Near (1e-10 : Float32) (14411519 / 2 ^ 57) 0 := by
  have hparts : unpacked (1e-10 : Float32) = .finite .positive 14411519 (-57) (by decide) := rfl
  exact near_of_unpacked hparts (by norm_num [signed])

/-- The logarithm of the least gain, exactly. -/
private theorem near_ln_least : Near (ln 1e-10) (-(12072177 / 2 ^ 19)) 0 := by
  have hparts : unpacked (Float32.ofBits 0xc1b834f1) =
      .finite .negative 12072177 (-19) (by decide) := rfl
  exact near_of_toBits (by decide +kernel) hparts (by norm_num [signed])

/-- The bound of a gain that is above one by rounding only. -/
theorem near_gain_bound : Near (Float32.ofBits 0x3f800040) (1 + 2 ^ (-17 : ℤ)) 0 := by
  have hparts : unpacked (Float32.ofBits 0x3f800040) =
      .finite .positive (2 ^ 23 + 2 ^ 6) (-23) (by decide) := rfl
  exact near_of_unpacked hparts (by norm_num [signed])

/-- The logarithm of the bound of a gain, exactly. -/
private theorem near_ln_most : Near (ln (Float32.ofBits 0x3f800040)) (16777152 / 2 ^ 41) 0 := by
  have hparts : unpacked (Float32.ofBits 0x36ffffc0) =
      .finite .positive 16777152 (-41) (by decide) := rfl
  exact near_of_toBits (by decide +kernel) hparts (by norm_num [signed])

/-- The factor from natural logarithms to decibels, exactly. -/
private theorem near_decibels : Near (20 / lnTen) (9107815 / 2 ^ 20) 0 := by
  have hparts : unpacked (20 / lnTen) = .finite .positive 9107815 (-20) (by decide) := rfl
  exact near_of_unpacked hparts (by norm_num [signed])

/-- The ten-thousandth of a decibel that is tolerated, exactly. -/
private theorem near_tolerance : Near (1e-4 : Float32) (13743895 / 2 ^ 37) 0 := by
  have hparts : unpacked (1e-4 : Float32) = .finite .positive 13743895 (-37) (by decide) := rfl
  exact near_of_unpacked hparts (by norm_num [signed])

/-! ### The level -/

variable {x : Float32}

/-- The gain that is told, which is not below the least. -/
private theorem larger_mem (hx : Finite x) {B : ℚ} (hle : value x ≤ B)
    (hB : 14411519 / 2 ^ 57 ≤ B) :
    Finite (larger x 1e-10) ∧ value (1e-10 : Float32) ≤ value (larger x 1e-10) ∧
      value (larger x 1e-10) ≤ B := by
  -- what is not below the least is the gain itself
  rw [larger, hx.isNaN_eq_false, Bool.or_false]
  split
  next => exact ⟨near_least.finite, le_rfl, near_least.value_eq.trans_le hB⟩
  next hge =>
    rw [decide_eq_true_iff, lt_iff hx near_least.finite, not_lt] at hge
    exact ⟨hx, hge, hle⟩

/-- A gain that is above one by `2 ^ -17` at most has a level that is above zero by a ten-thousandth
of a decibel at most, and one that is not above one has a level that is not above zero. -/
theorem decibelsOfGain_le (hx : Finite x) (hle : value x ≤ 1 + 2 ^ (-17 : ℤ)) :
    decibelsOfGain x ≤ 1e-4 ∧ (value x ≤ 1 → decibelsOfGain x ≤ 0) := by
  obtain ⟨hgain, hgain_ge, hgain_le⟩ := larger_mem hx hle (by norm_num)
  have hnormal : (2 : ℚ) ^ (-126 : ℤ) ≤ value (1e-10 : Float32) := by
    rw [near_least.value_eq]
    norm_num
  have hnormal' := hnormal.trans hgain_ge
  -- the logarithm keeps the order, so its value lies between those of the least gain and of the
  -- bound
  obtain ⟨-, hln, hln_ge⟩ := ln_mono near_least.finite hgain hnormal hgain_ge
  obtain ⟨-, -, hln_le⟩ := ln_mono hgain near_gain_bound.finite hnormal'
    (hgain_le.trans near_gain_bound.value_eq.ge)
  rw [near_ln_least.value_eq] at hln_ge
  rw [near_ln_most.value_eq] at hln_le
  norm_num at hln_ge hln_le
  -- the level is not large, so the product does not overflow
  have hlevel : |value (ln (larger x 1e-10)) * value (20 / lnTen)| ≤ 2 ^ (8 : ℤ) := by
    rw [near_decibels.value_eq]
    exact abs_le.mpr ⟨by norm_num; linarith, by norm_num; linarith⟩
  have hrounds := mul_rounds hln near_decibels.finite (nearest_lt_overflow hlevel (by decide))
  rw [near_decibels.value_eq] at hrounds
  refine ⟨(le_iff hrounds.finite near_tolerance.finite).mpr ?_,
    fun hone => (le_iff hrounds.finite near_zero.finite).mpr ?_⟩
  · refine hrounds.value_eq ▸ nearest_le near_tolerance.finite.isNumber ?_
    rw [near_tolerance.value_eq]
    norm_num
    linarith
  · -- the logarithm of one is exactly zero
    obtain ⟨-, -, hgain_le⟩ := larger_mem hx hone (by norm_num)
    obtain ⟨-, -, hln_le⟩ := ln_mono hgain near_one.finite hnormal'
      (hgain_le.trans near_one.value_eq.ge)
    rw [near_ln_one.value_eq] at hln_le
    rw [near_zero.value_eq]
    refine hrounds.value_eq ▸ nearest_le isNumber_zero ?_
    exact mul_nonpos_of_nonpos_of_nonneg hln_le (by norm_num)

end DynamicRange.Binary
