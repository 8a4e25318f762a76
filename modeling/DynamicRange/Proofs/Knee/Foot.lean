import DynamicRange.Proofs.Knee.Rounding

/-!
# Next to the lower end of the knee

Next to its lower end the curve is closer to the identity than its error. Yet it is not above it
where the knee bends enough. The second coefficient of the cubic is then below zero as it is
computed, and outweighs the third, so that the curve is not above its tangent. The tangent is off
the identity by the rounding of the way into the knee, which is short; the level itself is rounded
in larger steps, and the sum is rounded to the level or below.

## Key results

- `Knee.cubic_le_tangent`: a cubic in single precision
- `Knee.tangent_sub_lt`: the tangent next to the lower end
- `Knee.Sound.output_le_of_foot`: the curve there
-/

namespace DynamicRange

open Binary Scalar

namespace Knee

/-! ### The tangent -/

section Cubic

variable {c₂ c₃ t : Float32} (hc₂ : Finite c₂) (hc₃ : Finite c₃) (ht : Finite t)
  (hτ : 0 ≤ value t ∧ value t ≤ 1) (hweigh : |value c₃| ≤ -value c₂)
  (hc₂_le : |value c₂| ≤ 2 ^ (4 : ℤ))
include hc₂ hc₃ ht hτ hweigh hc₂_le

/-- The two higher terms of a cubic, of which the second coefficient is below zero and outweighs the
third. -/
private theorem higher_terms_nonpos :
    Finite (c₃ * (t * t * t) + c₂ * (t * t)) ∧ value (c₃ * (t * t * t) + c₂ * (t * t)) ≤ 0 ∧
      |value (c₃ * (t * t * t) + c₂ * (t * t))| ≤ 2 ^ (5 : ℤ) := by
  obtain ⟨ht₂, ht₂_nonneg, ht₂_le⟩ := mul_unit ht ht hτ hτ
  have ht₂_abs : |value (t * t)| ≤ 1 := abs_le.mpr ⟨by linarith, ht₂_le⟩
  -- the third power is not above the second
  have hcube : 0 ≤ value (t * t) * value t := mul_nonneg ht₂_nonneg hτ.1
  have hcube_le : value (t * t) * value t ≤ value (t * t) := mul_le_of_le_one_right ht₂_nonneg hτ.2
  have ht₃ := mul_rounds ht₂ ht (nearest_lt_overflow_of_unit hcube (hcube_le.trans ht₂_le))
  obtain ⟨ht₃_nonneg, ht₃_le⟩ := ht₃.mem isNumber_zero ht₂.isNumber hcube hcube_le
  -- so its term is not above what the other takes away
  have hsecond : |value c₂ * value (t * t)| ≤ 2 ^ (4 : ℤ) :=
    abs_mul_le_of_le hc₂_le ht₂_abs (by norm_num)
  have hthird : |value c₃ * value (t * t * t)| ≤ -(value c₂ * value (t * t)) := by
    rw [abs_mul, abs_of_nonneg ht₃_nonneg, ← neg_mul]
    exact mul_le_mul hweigh ht₃_le ht₃_nonneg ((abs_nonneg _).trans hweigh)
  have hthird_le : |value c₃ * value (t * t * t)| ≤ 2 ^ (4 : ℤ) :=
    hthird.trans ((neg_le_abs _).trans hsecond)
  have hB := mul_rounds hc₂ ht₂ (nearest_lt_overflow hsecond (by decide))
  have hA := mul_rounds hc₃ ht₃.finite (nearest_lt_overflow hthird_le (by decide))
  have hA_le : value (c₃ * (t * t * t)) ≤ -value (c₂ * (t * t)) := by
    rw [hA.value_eq, hB.value_eq, ← nearest_neg]
    exact nearest_mono (abs_le.mp hthird).2
  obtain ⟨-, hA_abs⟩ := mul_bound hc₃ ht₃.finite hthird_le (by decide)
  obtain ⟨-, hB_abs⟩ := mul_bound hc₂ ht₂ hsecond (by decide)
  have hsum_abs := abs_add_le_of_le (D := 2 ^ (5 : ℤ)) hA_abs hB_abs (by norm_num)
  have hsum := add_rounds hA.finite hB.finite (nearest_lt_overflow hsum_abs (by decide))
  refine ⟨hsum.finite, ?_, ?_⟩
  · exact hsum.value_eq ▸ nearest_le isNumber_zero (by linarith)
  · exact hsum.value_eq ▸ abs_nearest_le (isNumber_zpow (by decide)) hsum_abs

/-- Such a cubic is not above its tangent. No rounding changes that. -/
theorem cubic_le_tangent {m₀ p₀ : Float32} (hm₀ : Finite m₀) (hp₀ : Finite p₀)
    (hm₀_le : |value m₀| ≤ 2 ^ (4 : ℤ)) (hp₀_le : |value p₀| ≤ 2 ^ (4 : ℤ)) :
    value (c₃ * (t * t * t) + c₂ * (t * t) + m₀ * t + p₀) ≤
      nearest .binary32 (value (m₀ * t) + value p₀) := by
  -- the terms without the constant are at most the linear one, and stay in range
  obtain ⟨hAB, hAB_nonpos, hAB_abs⟩ := higher_terms_nonpos hc₂ hc₃ ht hτ hweigh hc₂_le
  have hτ_abs : |value t| ≤ 1 := abs_le.mpr ⟨by linarith, hτ.2⟩
  have hC : |value m₀ * value t| ≤ 2 ^ (4 : ℤ) := abs_mul_le_of_le hm₀_le hτ_abs (by norm_num)
  obtain ⟨hC, hC_abs⟩ := mul_bound hm₀ ht hC (by decide)
  have hABC_abs := abs_add_le_of_le (D := 2 ^ (6 : ℤ)) hAB_abs hC_abs (by norm_num)
  have hABC := add_rounds hAB hC (nearest_lt_overflow hABC_abs (by decide))
  have hABC_le : value (c₃ * (t * t * t) + c₂ * (t * t) + m₀ * t) ≤ value (m₀ * t) :=
    hABC.value_eq ▸ nearest_le hC.isNumber (by linarith)
  have hABC_abs : |value (c₃ * (t * t * t) + c₂ * (t * t) + m₀ * t)| ≤ 2 ^ (6 : ℤ) :=
    hABC.value_eq ▸ abs_nearest_le (isNumber_zpow (by decide)) hABC_abs
  -- adding the constant keeps that order
  have hsum_abs := abs_add_le_of_le (D := 2 ^ (7 : ℤ)) hABC_abs hp₀_le (by norm_num)
  have hsum := add_rounds hABC.finite hp₀ (nearest_lt_overflow hsum_abs (by decide))
  rw [hsum.value_eq]
  exact nearest_mono (by linarith)

end Cubic

section Way

variable {x start w m₀ : Float32} (hx : Finite x) (hstart : Finite start) (hw : Finite w)
  (hm₀ : Finite m₀) (hslope : value m₀ = value w) (hpos : 0 < value w) (hw_le : value w ≤ 2.1201)
  (hge : value start ≤ value x) (hdiff_le : value x - value start ≤ 8)
  (hle : value (x - start) ≤ value w)
include hx hstart hw hm₀ hslope hpos hw_le hge hdiff_le hle

/-- The width times the share of it, after three roundings. -/
private theorem tangent_le :
    value (m₀ * ((x - start) / w)) ≤
      (value x - value start) * (1 + 3.1 / 2 ^ 24) + 2 ^ (-147 : ℤ) := by
  norm_num at hw_le
  have hdiff : 0 ≤ value x - value start := sub_nonneg.mpr hge
  -- the distance, the share and the product each round by a share of themselves
  have hd := sub_rounds hx hstart (nearest_lt_overflow (k := 3)
    (abs_le.mpr ⟨by linarith, hdiff_le.trans (by norm_num)⟩) (by decide))
  have hd_nonneg : 0 ≤ value (x - start) := hd.value_eq ▸ le_nearest isNumber_zero hdiff
  have hd_le := hd.value_eq ▸ (nearest_bounds hdiff).2
  have hshare : 0 ≤ value (x - start) / value w := div_nonneg hd_nonneg hpos.le
  have hshare_le : value (x - start) / value w ≤ 1 := div_le_one_of_le₀ hle hpos.le
  have ht := div_rounds hd.finite hw hpos.ne' (nearest_lt_overflow_of_unit hshare hshare_le)
  obtain ⟨ht_nonneg, ht_le_one⟩ := ht.mem isNumber_zero isNumber_one hshare hshare_le
  have ht_le := ht.value_eq ▸ (nearest_bounds hshare).2
  -- the share is not above one, so that the product is at most the width
  have hproduct : 0 ≤ value w * value ((x - start) / w) := mul_nonneg hpos.le ht_nonneg
  have hC := mul_rounds hm₀ ht.finite (nearest_lt_overflow (k := 2) (by
    rw [hslope, abs_of_nonneg hproduct]
    exact (mul_le_of_le_one_right hpos.le ht_le_one).trans (by norm_num; linarith)) (by decide))
  rw [hslope] at hC
  have hC_le := hC.value_eq ▸ (nearest_bounds hproduct).2
  -- multiplied by the width the share is the distance again
  have hscaled := mul_le_mul_of_nonneg_left ht_le hpos.le
  have hback : value w * (value (x - start) / value w * (1 + 1 / 2 ^ 24) + 2 ^ (-150 : ℤ)) =
      value (x - start) * (1 + 1 / 2 ^ 24) + value w * 2 ^ (-150 : ℤ) := by
    field_simp
  rw [hback] at hscaled
  norm_num at hd_le hC_le hscaled ⊢
  linarith

/-- The tangent is above the level by less than half of what sets the level apart from the next
number above. -/
theorem tangent_sub_lt (hstart_le : value start ≤ -1e-5)
    (hfoot : 8 * (value x - value start) ≤ -value start) :
    value (m₀ * ((x - start) / w)) + value start - value x < -value x / 2 ^ 24 / 2 := by
  have hle := tangent_le hx hstart hw hm₀ hslope hpos hw_le hge hdiff_le hle
  norm_num at hle hstart_le ⊢
  linarith

end Way

/-! ### The curve -/

section Sound

variable {k : Knee Float32} (h : k.Sound) (hb : k.Balanced)

/-- Whether the exact curve bends by more than the coefficients are off: the fall of the slope over
the knee, times the width. -/
def Steep (k : Knee Float32) : Prop :=
  2 ^ (-15 : ℤ) ≤ (1 - k.ratio.exact.slope) * (value k.stop - value k.start)

include h hb

/-- A steep knee is wide, so its lower end is well below full scale. -/
private theorem Sound.start_le_of_steep (hsteep : k.Steep) : value k.start ≤ -1e-5 := by
  -- the width of a steep knee is at least `2 ^ -15`, because the slope falls by at most one
  obtain ⟨hδ, -⟩ := h.ratio_allowed.exact_slope_bounds
  have hwidth : 0 ≤ value k.stop - value k.start := by linarith [h.start_le, h.threshold_le]
  have hsteep := hsteep.trans (mul_le_of_le_one_left hwidth (by linarith))
  -- its middle is the threshold, which is not above full scale
  have hmiddle := abs_le.mp hb.middle
  have hnonpos := h.threshold_nonpos
  norm_num at hsteep hmiddle ⊢
  linarith

omit h hb in
/-- With a fall of the slope by more than the coefficients are off, the second is below zero and
outweighs the third. -/
private theorem outweighs {c₂ c₃ : Float32} {ω δ η ρ : ℚ}
    (hc₂ : Near c₂ (-((1 - δ) * ω / 2) + (3 * η - ρ)) 3.3e-6) (hc₃ : Near c₃ (ρ - 2 * η) 1.56e-6)
    (hη : |η| ≤ 1.26e-6) (hρ : |ρ| ≤ 1.9e-7) (hfall : 3e-5 ≤ (1 - δ) * ω)
    (hfall_le : (1 - δ) * ω ≤ 2.1201) :
    |value c₃| ≤ -value c₂ ∧ |value c₂| ≤ 2 ^ (4 : ℤ) := by
  -- the two coefficients, with the errors of the ends
  have hc₂ := abs_le.mp hc₂.error
  have hc₃ := abs_le.mp hc₃.error
  have hη := abs_le.mp hη
  have hρ := abs_le.mp hρ
  norm_num at hc₂ hc₃ hη hρ hfall hfall_le
  exact ⟨abs_le.mpr ⟨by linarith, by linarith⟩,
    abs_le.mpr ⟨by norm_num; linarith, by norm_num; linarith⟩⟩

/-- Next to the lower end of a steep knee the curve is not above the identity. -/
theorem Sound.output_le_of_foot (hsteep : k.Steep) {x : Float32} (hx : Finite x)
    (hge : value k.start ≤ value x) (hinside : ¬k.isHard ∧ x < k.stop)
    (hfoot : 8 * (value x - value k.start) ≤ -value k.start) : value (k.output x) ≤ value x := by
  have hlt := (lt_iff hx h.stop_finite).mp hinside.2
  have hwidth := hb.width_le
  norm_num at hwidth
  -- the way into the knee and the share of it that is computed
  obtain ⟨-, -, -, hway_le⟩ :=
    way_le hx h.start_finite h.stop_finite hge hlt.le (by norm_num; linarith)
  obtain ⟨hw, hwpos, ht, hτ, -⟩ :=
    way_near hx h.start_finite h.stop_finite hge hlt hb.width_le
  obtain ⟨hδ, hδ'⟩ := h.ratio_allowed.exact_slope_bounds
  -- the ends as they are computed, and with them the coefficients of the cubic
  obtain ⟨η, ρ, hη, hρ, hp₁, hm₀, hm₁⟩ := h.near_ends hb hw
  obtain ⟨hS, hω, hend, hω_le⟩ := h.ends_mem hb hw hwpos
  obtain ⟨hc₂, hc₃⟩ := near_parabola_coefficients (near_value h.start_finite) hp₁ hm₀ hm₁ hS
    ⟨hω, hend, hω_le⟩ ⟨hδ, hδ'⟩ hη hρ
  have htangent := tangent_sub_lt hx h.start_finite hw.finite hm₀.finite hm₀.value_eq hwpos hω_le
    hge (by linarith) hway_le (h.start_le_of_steep hb hsteep) hfoot
  -- the fall of the slope over the width that is computed
  have hmoved : |(1 - k.ratio.exact.slope) * (value (k.stop - k.start) -
      (value k.stop - value k.start))| ≤ 1.2e-7 :=
    abs_mul_le_of_le (abs_le.mpr ⟨by linarith, by linarith⟩ : |1 - k.ratio.exact.slope| ≤ 1)
      hw.error (by norm_num)
  have hfall : 3e-5 ≤ (1 - k.ratio.exact.slope) * value (k.stop - k.start) := by
    have hmoved := (abs_le.mp hmoved).1
    rw [Steep] at hsteep
    norm_num at hsteep hmoved ⊢
    linarith
  obtain ⟨hweigh, hc₂_le⟩ := outweighs hc₂ hc₃ hη hρ hfall
    ((mul_le_of_le_one_left hω (by linarith)).trans hω_le)
  -- the computed cubic is at most the tangent, and the tangent rounds to the level at most
  rw [output, if_pos hinside]
  unfold hermite
  dsimp only
  norm_num at hS hω_le
  have hcubic := cubic_le_tangent hc₂.finite hc₃.finite ht hτ hweigh hc₂_le hm₀.finite
    h.start_finite
    (by rw [hm₀.value_eq]; exact abs_le.mpr ⟨by norm_num; linarith, by norm_num; linarith⟩)
    (abs_le.mpr ⟨by norm_num; linarith, by norm_num; linarith⟩)
  exact hcubic.trans (nearest_le_of_sub_lt hx.isNumber htangent)

end Sound

end Knee

end DynamicRange
