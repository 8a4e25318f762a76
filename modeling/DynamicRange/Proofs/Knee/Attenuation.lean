import DynamicRange.Proofs.Knee.Foot

/-!
# The gain is not above one

Outside the knee the line is computed by a difference, a quotient and a sum. With a ratio above one
the quotient is below the exact difference in spite of two roundings, because each rounding is by
less than half of what the least ratio above one takes away. With a ratio of one nothing is taken
away, and the line can lie above the identity, as the cubic can inside a knee that hardly bends. The
exponential does not add to it: it is at most one up to zero, and just above zero it is a sum.

## Key results

- `Ratio.Allowed.line_mem`, `Ratio.Allowed.line_le`: the line
- `Knee.Sound.output_mem`: the curve against the identity
- `Knee.Sound.clear_of_bends`: curves that are below it all the way
- `Knee.Sound.gain_mem`, `Knee.Sound.applied_mem`: the gain
-/

namespace DynamicRange

open Binary Scalar

namespace Ratio

section LineAbove

variable {threshold x : Float32} (hthreshold : Finite threshold) (hx : Finite x)
  (hge : -8.4 ≤ Binary.value threshold) (hnonpos : Binary.value threshold ≤ 0)
  (hle : Binary.value threshold ≤ Binary.value x) (hx_le : Binary.value x ≤ 89)
include hthreshold hx hge hnonpos hle hx_le

/-- The three operations of the line above the threshold. None of them leaves `2 ^ 7`. -/
private theorem line_rounds {r : Float32} (hr : Finite r) (hone : 1 ≤ Binary.value r) :
    let d := x - threshold
    let q := d / r
    (Rounds d (Binary.value x - Binary.value threshold) ∧
        |Binary.value d - (Binary.value x - Binary.value threshold)| ≤ 2 ^ (7 - 25 : ℤ)) ∧
      (Rounds q (Binary.value d / Binary.value r) ∧ 0 ≤ Binary.value q ∧
        Binary.value q ≤ Binary.value d) ∧
      Rounds (q + threshold) (Binary.value q + Binary.value threshold) ∧
      |Binary.value (q + threshold) - (Binary.value q + Binary.value threshold)| ≤
        2 ^ (7 - 25 : ℤ) := by
  intro d q
  have hpos : 0 < Binary.value r := zero_lt_one.trans_le hone
  norm_num at hge
  -- the distance from the threshold is at most 98, so that its rounding is small
  have hdiff : 0 ≤ Binary.value x - Binary.value threshold := sub_nonneg.mpr hle
  have hdiff_abs : |Binary.value x - Binary.value threshold| ≤ 2 ^ (7 : ℤ) :=
    abs_le.mpr ⟨by norm_num; linarith, by norm_num; linarith⟩
  have hd := sub_rounds hx hthreshold (nearest_lt_overflow hdiff_abs (by decide))
  have hd_near : |Binary.value d - (Binary.value x - Binary.value threshold)| ≤ 2 ^ (7 - 25 : ℤ) :=
    hd.near hdiff_abs (by decide)
  have hd_nonneg : 0 ≤ Binary.value d := hd.value_eq ▸ le_nearest isNumber_zero hdiff
  -- zero and the difference are numbers, so the rounded quotient is still between them
  have hquotient := div_nonneg hd_nonneg hpos.le
  have hquotient_le := div_le_self hd_nonneg hone
  have hd_le : Binary.value d ≤ 2 ^ (7 : ℤ) :=
    hd.value_eq ▸ nearest_le (isNumber_zpow (by decide)) (abs_le.mp hdiff_abs).2
  have hq := div_rounds hd.finite hr hpos.ne' (nearest_lt_overflow (k := 7)
    (abs_le.mpr ⟨by linarith, hquotient_le.trans hd_le⟩) (by decide))
  have hq_mem := hq.mem isNumber_zero hd.finite.isNumber hquotient hquotient_le
  -- what is added to the threshold is at most the distance
  have hnear := abs_le.mp hd_near
  norm_num at hnear
  have hsum_abs : |Binary.value q + Binary.value threshold| ≤ 2 ^ (7 : ℤ) :=
    abs_le.mpr ⟨by norm_num; linarith, by norm_num; linarith⟩
  have hsum := add_rounds hq.finite hthreshold (nearest_lt_overflow hsum_abs (by decide))
  exact ⟨⟨hd, hd_near⟩, ⟨hq, hq_mem⟩, hsum, hsum.near hsum_abs (by decide)⟩

/-- Above the threshold the line is between it and the identity, but for rounding. -/
theorem Allowed.line_mem {ratio : Ratio Float32} (h : ratio.Allowed) :
    Finite (ratio.line threshold x) ∧
      Binary.value threshold ≤ Binary.value (ratio.line threshold x) ∧
      Binary.value (ratio.line threshold x) ≤ Binary.value x + 2 ^ (-17 : ℤ) := by
  cases hr : ratio with
  | finite r =>
    obtain ⟨hfinite, hone⟩ := h r hr
    obtain ⟨⟨-, hd⟩, ⟨-, hq, hq'⟩, hsum, hline⟩ :=
      line_rounds hthreshold hx hge hnonpos hle hx_le hfinite hone
    refine ⟨hsum.finite, hsum.value_eq ▸ le_nearest hthreshold.isNumber (by linarith), ?_⟩
    -- the first and the last operation may each round up by `2 ^ -18`
    have hd := (abs_le.mp hd).2
    have hline := (abs_le.mp hline).2
    norm_num at hd hline ⊢
    show Binary.value ((x - threshold) / r + threshold) ≤ _
    linarith
  | limit => exact ⟨hthreshold, le_rfl, hle.trans (le_add_of_nonneg_right (zpow_pos two_pos _).le)⟩

/-- With a ratio above one the line is not above the identity, in spite of rounding. -/
theorem Allowed.line_le {ratio : Ratio Float32} (h : ratio.Allowed) (hne : ratio ≠ .finite 1) :
    Binary.value (ratio.line threshold x) ≤ Binary.value x := by
  cases hr : ratio with
  | finite r =>
    obtain ⟨hfinite, hone⟩ := h r hr
    obtain ⟨⟨hd, -⟩, ⟨hq, -⟩, hsum, -⟩ :=
      line_rounds hthreshold hx hge hnonpos hle hx_le hfinite hone
    -- a ratio that is not one is above it by at least one unit of the format
    have hgt : 1 < Binary.value r := by
      refine lt_of_le_of_ne hone fun heq => hne (hr.trans (congrArg Ratio.finite ?_))
      exact eq_of_value_eq hfinite near_one.finite (heq.symm.trans near_one.value_eq.symm)
        (heq ▸ one_ne_zero)
    -- dividing by it takes more off the distance than the two roundings can add
    have hless := nearest_div_nearest_le hx.isNumber hthreshold.isNumber hle hfinite.isNumber hgt
    rw [← hd.value_eq, ← hq.value_eq] at hless
    exact hsum.value_eq ▸ nearest_le hx.isNumber (by linarith)
  | limit => exact hle

end LineAbove

end Ratio

namespace Knee

variable {k : Knee Float32}

/-- Whether rounding cannot lift the curve above the identity at a level. Inside the knee the exact
curve is far enough below it, or the level is next to the lower end and the knee steep; above the
knee the ratio is above one. -/
def Clear (k : Knee Float32) (x : Float32) : Prop :=
  if ¬k.isHard ∧ x < k.stop then
    2 ^ (-17 : ℤ) ≤ k.reduction x ∨ (k.Steep ∧ 8 * (value x - value k.start) ≤ -value k.start)
  else k.ratio ≠ .finite 1

/-- Whether that is so for all levels: the ratio is above one, and the knee hard or steep. A knee
whose lower end is next to full scale has to bend a little more. -/
def Bends (k : Knee Float32) : Prop :=
  k.ratio ≠ .finite 1 ∧
    (k.isHard = false → k.Steep ∧
      2 ^ (-10 : ℤ) * (value k.stop - value k.start) ≤
        (1 - k.ratio.exact.slope) * value k.start ^ 2)

/-- The knee of the default settings bends. -/
theorem bends_default : (make (0.125 : Float32) (.finite 2) 2.82843).Bends := by
  -- the two ends as they are computed
  have hstart : unpacked (Float32.ofBits 0xc0265af9) =
      .finite .negative 10902265 (-22) (by decide) := rfl
  have hstop : unpacked (Float32.ofBits 0xbfc7a057) =
      .finite .negative 13082711 (-23) (by decide) := rfl
  have hstart : Near (make (0.125 : Float32) (.finite 2) 2.82843).start (-10902265 / 2 ^ 22) 0 :=
    near_of_toBits (by decide +kernel) hstart (by norm_num [signed])
  have hstop : Near (make (0.125 : Float32) (.finite 2) 2.82843).stop (-13082711 / 2 ^ 23) 0 :=
    near_of_toBits (by decide +kernel) hstop (by norm_num [signed])
  -- a ratio of two has the slope one half
  have hslope : (make (0.125 : Float32) (.finite 2) 2.82843).ratio.exact.slope = 1 / 2 := by
    show 1 / value (2 : Float32) = 1 / 2
    rw [near_two.value_eq]
  refine ⟨by decide, fun _ => ?_⟩
  rw [Steep, hslope, hstart.value_eq, hstop.value_eq]
  norm_num

section Sound

variable (h : k.Sound) (hb : k.Balanced)
include h hb

/-- Outside the knee a level is not below the threshold. -/
private theorem Sound.threshold_le_of_outside {x : Float32} (hx : Finite x)
    (hge : value k.start ≤ value x) (houtside : ¬(¬k.isHard ∧ x < k.stop)) :
    value k.threshold ≤ value x := by
  -- outside a knee with width is above its upper end
  by_cases hhard : k.isHard = true
  · exact (hb.hard hhard).trans hge
  · have hstop : ¬x < k.stop := fun hlt => houtside ⟨hhard, hlt⟩
    rw [lt_iff hx h.stop_finite, not_lt] at hstop
    exact h.threshold_le.trans hstop

/-- Inside the knee the exact curve is below the identity by no more than half the width. -/
private theorem Sound.reduction_mem {x : Float32} (hge : value k.start ≤ value x)
    (hinside : ¬k.isHard ∧ x < k.stop) (hlt : value x < value k.stop) :
    -- the slope of the ratio is between zero and one
    0 ≤ k.reduction x ∧ k.reduction x ≤ 1.06 := by
  obtain ⟨hδ, hδ'⟩ := h.ratio_allowed.exact_slope_bounds
  have hwidth := hb.width_le
  have hpos : 0 < 2 * (value k.stop - value k.start) := by linarith
  have hway : 0 ≤ value x - value k.start := by linarith
  rw [reduction, if_pos hinside, le_div_iff₀ hpos, div_le_iff₀ hpos, zero_mul]
  have hsquare := sq_nonneg (value x - value k.start)
  -- the share of the square is at most the square of the width
  refine ⟨mul_nonneg (by linarith) hsquare, ?_⟩
  have hshare : (value x - value k.start) ^ 2 ≤ (value k.stop - value k.start) ^ 2 :=
    pow_le_pow_left₀ hway (by linarith) 2
  norm_num at hwidth ⊢
  nlinarith [mul_le_of_le_one_left hsquare (by linarith : 1 - k.ratio.exact.slope ≤ 1)]

omit hb in
/-- A curve that bends enough is clear of the identity from the lower end on. -/
theorem Sound.clear_of_bends (hbends : k.Bends) {x : Float32} (hx : Finite x)
    (hge : value k.start ≤ value x) : k.Clear x := by
  rw [Clear]
  split
  -- inside the knee, either the foot or far enough from the lower end
  next hinside =>
    obtain ⟨hsteep, hbend⟩ := hbends.2 (Bool.eq_false_of_not_eq_true hinside.1)
    by_cases hfoot : 8 * (value x - value k.start) ≤ -value k.start
    · exact .inr ⟨hsteep, hfoot⟩
    · left
      have hlt := (lt_iff hx h.stop_finite).mp hinside.2
      have hnonpos := h.start_le.trans h.threshold_nonpos
      obtain ⟨-, hδ⟩ := h.ratio_allowed.exact_slope_bounds
      -- past the foot the way into the knee is at least an eighth of the end's distance from zero
      have hway : value k.start ^ 2 ≤ 64 * (value x - value k.start) ^ 2 := by nlinarith
      have hscaled := mul_le_mul_of_nonneg_left hway (by linarith : 0 ≤ 1 - k.ratio.exact.slope)
      rw [reduction, if_pos hinside, le_div_iff₀ (by linarith)]
      norm_num at hbend ⊢
      linarith
  next => exact hbends.1

/-- The curve against the identity. -/
theorem Sound.output_mem {x : Float32} (hx : Finite x) (hge : value k.start ≤ value x)
    (hle : value x ≤ 89) :
    Finite (k.output x) ∧ value x - 98 ≤ value (k.output x) ∧
      value (k.output x) ≤ value x + 2 ^ (-17 : ℤ) ∧
      (k.Clear x → value (k.output x) ≤ value x) := by
  have hstart := h.le_start
  have hstart_le := h.start_le
  norm_num at hstart
  by_cases hinside : ¬k.isHard ∧ x < k.stop
  -- inside the knee the curve is near the exact one, which is below the identity
  · have hnear := h.output_near hb hx hge hinside
    obtain ⟨hreduction, hreduction'⟩ :=
      h.reduction_mem hb hge hinside ((lt_iff hx h.stop_finite).mp hinside.2)
    have herror := abs_le.mp hnear.error
    have hunit : (2 : ℚ) ^ (-17 : ℤ) = 1 / 131072 := by norm_num
    norm_num at herror hreduction'
    rw [Clear, if_pos hinside, hunit]
    refine ⟨hnear.finite, by linarith, by linarith, ?_⟩
    -- either the exact curve is below by more than the error, or the foot has its own bound
    rintro (hfar | ⟨hsteep, hfoot⟩)
    · linarith
    · exact h.output_le_of_foot hb hsteep hx hge hinside hfoot
  -- outside it is the line above the threshold
  · have hthreshold_le := h.threshold_le_of_outside hb hx hge hinside
    have hthreshold : -8.4 ≤ value k.threshold := h.le_start.trans h.start_le
    have houtput : k.output x = k.ratio.line k.threshold x := if_neg hinside
    obtain ⟨hfinite, hline, hline'⟩ := h.ratio_allowed.line_mem h.threshold_finite hx hthreshold
      h.threshold_nonpos hthreshold_le hle
    rw [Clear, if_neg hinside, houtput]
    exact ⟨hfinite, by linarith, hline', fun hne =>
      h.ratio_allowed.line_le h.threshold_finite hx hthreshold h.threshold_nonpos hthreshold_le hle
        hne⟩

/-- The gain is above zero, and above one by rounding only. -/
theorem Sound.gain_mem (detection : Detection) {level : Float32} (hlevel : Finite level)
    (hengages : k.engages level) :
    Finite (k.gain detection level) ∧ 0 < value (k.gain detection level) ∧
      value (k.gain detection level) ≤ 1 + 2 ^ (-17 : ℤ) ∧
      (k.Clear (levelLog detection level) → value (k.gain detection level) ≤ 1) := by
  have hlt := (lt_iff h.linearStart_finite hlevel).mp hengages.2
  obtain ⟨hx, hge, hle⟩ := h.levelLog_bounds detection hlevel hlt.le
  obtain ⟨houtput, hlow, hhigh, hclear⟩ := h.output_mem hb hx hge hle
  -- the level and its output from here on, with their bounds
  rw [gain]
  generalize levelLog detection level = x at hx hge hle houtput hlow hhigh hclear ⊢
  norm_num at hhigh
  -- the difference is between -98 and `2 ^ -17`, both numbers of the format
  have hdiff := sub_rounds houtput hx (nearest_lt_overflow (k := 7)
    (abs_le.mpr ⟨by norm_num; linarith, by norm_num; linarith⟩) (by decide))
  have hnumber : IsNumber .binary32 (-98) := isNumber_intCast (n := -98) (by decide)
  have hdiff_mem := hdiff.mem hnumber (isNumber_zpow (k := -17) (by decide)) (by linarith)
    (by norm_num; linarith)
  obtain ⟨hgain, hpos, hle'⟩ := exp_mem hdiff.finite hdiff_mem.1 hdiff_mem.2
  -- where the curve is clear the difference is not positive
  refine ⟨hgain, hpos, hle', fun h => ?_⟩
  have hnonpos : value (k.output x - x) ≤ 0 :=
    hdiff.value_eq ▸ nearest_le isNumber_zero (by linarith [hclear h])
  exact (exp_of_nonpos hdiff.finite hdiff_mem.1 hnonpos).2.2

/-- So is the gain that is applied, at any level. -/
theorem Sound.applied_mem (detection : Detection) {level : Float32} (hlevel : Finite level) :
    Finite (k.applied detection level) ∧ 0 < value (k.applied detection level) ∧
      value (k.applied detection level) ≤ 1 + 2 ^ (-17 : ℤ) ∧
      (k.Bends → value (k.applied detection level) ≤ 1) := by
  unfold applied
  split
  -- above the start of the knee the gain is that of the curve
  next hengages =>
    obtain ⟨hgain, hpos, hle, hclear⟩ := h.gain_mem hb detection hlevel hengages
    have hlt := (lt_iff h.linearStart_finite hlevel).mp hengages.2
    obtain ⟨hx, hge, -⟩ := h.levelLog_bounds detection hlevel hlt.le
    exact ⟨hgain, hpos, hle, fun hbends => hclear (h.clear_of_bends hbends hx hge)⟩
  -- elsewhere it is one
  next =>
    rw [near_one.value_eq]
    exact ⟨near_one.finite, one_pos, by norm_num, fun _ => le_rfl⟩

end Sound

end Knee

end DynamicRange
