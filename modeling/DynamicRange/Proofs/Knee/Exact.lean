import Mathlib
import DynamicRange.Proofs.Knee.Onset

/-!
# The static curve over an ordered field

The curve takes no more than field operations once the logarithms are given, so it can be read over
any ordered field, the rationals among them. With the threshold halfway between the ends of the knee
the cubic loses its third power, and all of the curve follows from one function, the excess: how far
a level lies above the threshold, with the corner there rounded off by a parabola. The curve takes
the same share of the excess off every level.

## Main definitions

* `Knee.curve`: the output for any level, and `Knee.segment`, its piece inside the knee
* `Knee.Exact`: a knee whose ends lie at the same distance from the threshold
* `Knee.excess`: the level above the threshold, with a round corner

## Key results

- `Knee.Exact.curve_eq`: the curve in terms of the excess
- `Knee.Exact.monotone_excess`, `Knee.Exact.monotone_sub_excess`: the excess grows, by no more than
  the level
- `Knee.Exact.curve_compresses`: the curve keeps the order of levels and never amplifies, and its
  pieces join without a corner
- `Knee.exact_make`, `Knee.applied_peak_eq`: the knee that is made over the reals
-/

namespace DynamicRange

namespace Knee

section Curve

variable {α : Type} [Add α] [Sub α] [Mul α] [Div α] [Neg α] [LT α] [DecidableLT α] [LE α]
  [DecidableLE α] [OfNat α 0] [OfNat α 1] [OfNat α 2] [OfNat α 3]

/-- The output for a level, both logarithms: the level itself up to the knee. -/
def curve (k : Knee α) (x : α) : α := if k.start < x then k.output x else x

/-- The piece of the curve inside the knee. -/
def segment (k : Knee α) (x : α) : α :=
  hermite x k.start k.stop k.start k.compressedStop 1 k.ratio.slope

end Curve

section Field

variable {α : Type} [Field α] [LinearOrder α] [IsStrictOrderedRing α] {k : Knee α} {h x y : α}

/-- A knee whose ends lie `h` below and above the threshold, of a ratio that does not expand. -/
structure Exact (k : Knee α) (h : α) : Prop where
  half_nonneg : 0 ≤ h
  start_eq : k.start = k.threshold - h
  stop_eq : k.stop = k.threshold + h
  compressedStop_eq : k.compressedStop = k.threshold + k.ratio.slope * h
  one_le_ratio : ∀ {r}, k.ratio = .finite r → 1 ≤ r
  /-- The knee has an inside exactly when its ends differ. -/
  one_lt_width_iff : 1 < k.width ↔ 0 < h

/-- How far a level lies above the threshold, with the corner at the threshold rounded off. -/
def excess (k : Knee α) (h x : α) : α :=
  if x ≤ k.start then 0
  else if x < k.stop then (x - k.start) ^ 2 / (4 * h)
  else x - k.threshold

omit [IsStrictOrderedRing α] in
/-- Up to the knee there is no excess. -/
theorem excess_of_le_start (hx : x ≤ k.start) : k.excess h x = 0 := if_pos hx

namespace Exact

/-! ### The slope of the ratio -/

section Slope

variable (hk : k.Exact h)
include hk

/-- The slope of the ratio is not negative. -/
theorem slope_nonneg : 0 ≤ k.ratio.slope := by
  cases hratio : k.ratio with
  | finite r => exact div_nonneg zero_le_one (zero_le_one.trans (hk.one_le_ratio hratio))
  | limit => exact le_rfl

/-- The slope of the ratio is at most one. -/
theorem slope_le_one : k.ratio.slope ≤ 1 := by
  cases hratio : k.ratio with
  | finite r =>
    have hr : 1 ≤ r := hk.one_le_ratio hratio
    exact (div_le_one (zero_lt_one.trans_le hr)).mpr hr
  | limit => exact zero_le_one

end Slope

/-! ### The pieces -/

variable (hk : k.Exact h)
include hk

/-- The knee ends where it starts or above. -/
theorem start_le_stop : k.start ≤ k.stop := by
  have := hk.half_nonneg
  rw [hk.start_eq, hk.stop_eq]
  linarith

/-- The cubic is a parabola: its third power cancels, because the threshold is halfway between the
ends. -/
theorem segment_eq (hpos : 0 < h) (x : α) :
    k.segment x = x - (1 - k.ratio.slope) * ((x - k.start) ^ 2 / (4 * h)) := by
  have hspan : k.stop - k.start = 2 * h := by
    rw [hk.start_eq, hk.stop_eq]
    ring
  have hne : h ≠ 0 := hpos.ne'
  -- the cubic with these ends and slopes, over a common denominator
  rw [segment, hermite, hspan, hk.compressedStop_eq, hk.start_eq]
  field_simp
  ring

/-- Inside the knee, ends included, the excess is the square of the way into it. -/
theorem excess_of_mem (hpos : 0 < h) (hx : x ∈ Set.Icc k.start k.stop) :
    k.excess h x = (x - k.start) ^ 2 / (4 * h) := by
  have hne : h ≠ 0 := hpos.ne'
  unfold excess
  split
  next hstart =>
    -- at the start both pieces are zero
    rw [hx.1.antisymm' hstart]
    simp
  next =>
    split
    next => rfl
    next hstop =>
      -- at the stop both pieces are `h`
      rw [hx.2.antisymm (not_lt.mp hstop), hk.start_eq, hk.stop_eq]
      field_simp
      ring

/-- From the end of the knee on the excess is the distance from the threshold. -/
theorem excess_of_stop_le (hx : k.stop ≤ x) : k.excess h x = x - k.threshold := by
  unfold excess
  split
  next hstart =>
    -- a knee whose ends meet at the threshold
    have hend : x = k.threshold := by
      have := hk.half_nonneg
      have := hk.start_eq
      have := hk.stop_eq
      linarith
    rw [hend, sub_self]
  next => rw [if_neg hx.not_gt]

/-- The curve takes the same share of the excess off every level. -/
theorem curve_eq (x : α) : k.curve x = x - (1 - k.ratio.slope) * k.excess h x := by
  unfold curve
  split
  next hstart =>
    -- a level above the start is inside the knee or above it
    rcases lt_or_ge x k.stop with hstop | hstop
    · have hpos : 0 < h := by
        have := hk.start_eq
        have := hk.stop_eq
        linarith
      have hsoft : ¬k.isHard = true :=
        fun hard => (of_decide_eq_true hard).not_gt (hk.one_lt_width_iff.mpr hpos)
      have houtput : k.output x = k.segment x := if_pos ⟨hsoft, hstop⟩
      rw [houtput, hk.segment_eq hpos, hk.excess_of_mem hpos ⟨hstart.le, hstop.le⟩]
    · have houtput : k.output x = k.ratio.line k.threshold x :=
        if_neg fun hlt => hlt.2.not_ge hstop
      rw [houtput, Ratio.line_eq, hk.excess_of_stop_le hstop]
      ring
  -- up to the start the level is kept
  next hstart =>
    rw [excess_of_le_start (not_lt.mp hstart), mul_zero, sub_zero]

/-! ### The excess -/

/-- A function that grows below, inside and above the knee grows. -/
private theorem monotone_of_pieces {f : α → α} (hbelow : MonotoneOn f (Set.Iic k.start))
    (hinside : 0 < h → MonotoneOn f (Set.Icc k.start k.stop))
    (habove : MonotoneOn f (Set.Ici k.stop)) : Monotone f := by
  -- the pieces are put together at the two ends, which may be one
  refine hbelow.Iic_union_Ici ?_
  rcases hk.half_nonneg.eq_or_lt with hzero | hpos
  · have hmeet : k.start = k.stop := by
      rw [hk.start_eq, hk.stop_eq, ← hzero, sub_zero, add_zero]
    rwa [hmeet]
  · rw [← Set.Icc_union_Ici_eq_Ici hk.start_le_stop]
    exact (hinside hpos).union_right habove (isGreatest_Icc hk.start_le_stop) isLeast_Ici

/-- The excess grows with the level. -/
theorem monotone_excess : Monotone (k.excess h) := by
  refine hk.monotone_of_pieces (fun x hx y hy _ => ?_) (fun hpos x hx y hy hxy => ?_)
    fun x hx y hy hxy => ?_
  -- it is zero, a square that grows from the start on, and a distance
  · rw [excess_of_le_start hx, excess_of_le_start hy]
  · rw [hk.excess_of_mem hpos hx, hk.excess_of_mem hpos hy]
    have hway : 0 ≤ x - k.start := sub_nonneg.mpr hx.1
    gcongr
  · rw [hk.excess_of_stop_le hx, hk.excess_of_stop_le hy]
    gcongr

/-- The excess grows by no more than the level. -/
theorem monotone_sub_excess : Monotone fun x => x - k.excess h x := by
  refine hk.monotone_of_pieces (fun x hx y hy hxy => ?_) (fun hpos x hx y hy hxy => ?_)
    fun x hx y hy hxy => ?_
  -- below the knee the difference is the level, above it the threshold
  · rw [excess_of_le_start hx, excess_of_le_start hy]
    linarith
  · rw [hk.excess_of_mem hpos hx, hk.excess_of_mem hpos hy]
    -- the ways of two levels into the knee add up to no more than twice its span
    have hways : (x - k.start) + (y - k.start) ≤ 4 * h := by
      have := hx.2
      have := hy.2
      have := hk.start_eq
      have := hk.stop_eq
      linarith
    have hgrowth : (y - k.start) ^ 2 / (4 * h) - (x - k.start) ^ 2 / (4 * h) ≤ y - x := by
      rw [← sub_div, div_le_iff₀ (by positivity)]
      nlinarith [mul_le_mul_of_nonneg_left hways (sub_nonneg.mpr hxy)]
    linarith
  · rw [hk.excess_of_stop_le hx, hk.excess_of_stop_le hy]
    linarith

/-- The excess is not negative. -/
theorem excess_nonneg (x : α) : 0 ≤ k.excess h x := by
  -- it is zero at the start and grows from there
  rcases le_total x k.start with hx | hx
  · exact (excess_of_le_start hx).ge
  · exact (excess_of_le_start le_rfl).ge.trans (hk.monotone_excess hx)

/-- The round corner lies above the sharp one. -/
theorem sub_threshold_le_excess (x : α) : x - k.threshold ≤ k.excess h x := by
  -- at the end of the knee the two are the same, and below it the excess grows more slowly
  rcases le_total x k.stop with hx | hx
  · have hgrow : x - k.excess h x ≤ k.stop - k.excess h k.stop := hk.monotone_sub_excess hx
    rw [hk.excess_of_stop_le le_rfl] at hgrow
    linarith
  · exact (hk.excess_of_stop_le hx).ge

/-! ### The curve -/

/-- The curve does not amplify. -/
theorem curve_le_self (x : α) : k.curve x ≤ x := by
  have hshare : 0 ≤ (1 - k.ratio.slope) * k.excess h x :=
    mul_nonneg (sub_nonneg.mpr hk.slope_le_one) (hk.excess_nonneg x)
  rw [hk.curve_eq]
  linarith

/-- The order of levels is kept. -/
theorem monotone_curve : Monotone k.curve := by
  -- a sum of two functions that grow
  have hsplit : k.curve = fun x => (x - k.excess h x) + k.ratio.slope * k.excess h x := by
    funext x
    rw [hk.curve_eq]
    ring
  rw [hsplit]
  exact hk.monotone_sub_excess.add (hk.monotone_excess.const_mul hk.slope_nonneg)

/-- More level never means less reduction. -/
theorem antitone_curve_sub : Antitone fun x => k.curve x - x := by
  intro x y hxy
  have hshare := mul_le_mul_of_nonneg_left (hk.monotone_excess hxy)
    (sub_nonneg.mpr hk.slope_le_one)
  simp only [hk.curve_eq]
  linarith

/-- The curve stays below the line of the ratio. -/
theorem curve_le_line (x : α) :
    k.curve x ≤ k.threshold + k.ratio.slope * (x - k.threshold) := by
  have hshare := mul_le_mul_of_nonneg_left (hk.sub_threshold_le_excess x)
    (sub_nonneg.mpr hk.slope_le_one)
  rw [hk.curve_eq]
  linarith

/-- The parabola starts on the identity. -/
theorem segment_start (hpos : 0 < h) : k.segment k.start = k.start := by
  rw [hk.segment_eq hpos, sub_self]
  ring

/-- The parabola ends on the line of the ratio. -/
theorem segment_stop (hpos : 0 < h) : k.segment k.stop = k.ratio.line k.threshold k.stop := by
  have hne : h ≠ 0 := hpos.ne'
  rw [hk.segment_eq hpos, Ratio.line_eq, hk.start_eq, hk.stop_eq]
  field_simp
  ring

omit [IsStrictOrderedRing α] in
/-- Without an inside the line of the ratio meets the identity. -/
theorem line_start (hzero : h = 0) : k.ratio.line k.threshold k.start = k.start := by
  rw [Ratio.line_eq, hk.start_eq, hzero]
  ring

/-- Up to the knee the curve is the identity. -/
theorem curve_of_le_start (hx : x ≤ k.start) : k.curve x = x := by
  rw [hk.curve_eq, excess_of_le_start hx, mul_zero, sub_zero]

/-- Inside the knee, ends included, the curve is the parabola. -/
theorem curve_of_mem (hpos : 0 < h) (hx : x ∈ Set.Icc k.start k.stop) :
    k.curve x = k.segment x := by
  rw [hk.curve_eq, hk.excess_of_mem hpos hx, hk.segment_eq hpos]

/-- From the end of the knee on the curve is the line of the ratio. -/
theorem curve_of_stop_le (hx : k.stop ≤ x) : k.curve x = k.ratio.line k.threshold x := by
  rw [hk.curve_eq, hk.excess_of_stop_le hx, Ratio.line_eq]
  ring

end Exact

end Field

/-! ### Slopes -/

section Slopes

open Set Topology

variable {α : Type} [NontriviallyNormedField α]

/-- The line of a ratio has its slope everywhere. -/
theorem hasDerivAt_line (ratio : Ratio α) (threshold x : α) :
    HasDerivAt (ratio.line threshold) ratio.slope x := by
  have hline : ratio.line threshold = fun x => threshold + ratio.slope * (x - threshold) :=
    funext (ratio.line_eq threshold)
  rw [hline]
  simpa using (((hasDerivAt_id x).sub_const threshold).const_mul ratio.slope).const_add threshold

/-- A function has a slope at a point where it has that slope on both sides. -/
private theorem hasDerivAt_of_sides [LinearOrder α] {f : α → α} {a d : α}
    (hbelow : HasDerivWithinAt f d (Iic a) a) (habove : HasDerivWithinAt f d (Ici a) a) :
    HasDerivAt f d a := by
  have hboth := hbelow.union habove
  rwa [Iic_union_Ici, hasDerivWithinAt_univ] at hboth

variable [LinearOrder α] [IsStrictOrderedRing α] {k : Knee α} {h : α}

namespace Exact

variable (hk : k.Exact h)
include hk

/-- The slope of the parabola falls evenly along the knee. -/
theorem hasDerivAt_segment (hpos : 0 < h) (x : α) :
    HasDerivAt k.segment (1 - (1 - k.ratio.slope) * ((x - k.start) / (2 * h))) x := by
  have hsegment : k.segment =
      fun x => x - (1 - k.ratio.slope) * ((x - k.start) ^ 2 / (4 * h)) :=
    funext (hk.segment_eq hpos)
  have hne : h ≠ 0 := hpos.ne'
  have hsquare := ((((hasDerivAt_id x).sub_const k.start).pow 2).div_const (4 * h)).const_mul
    (1 - k.ratio.slope)
  rw [hsegment]
  -- the derivative of the square, over a common denominator
  refine ((hasDerivAt_id x).sub hsquare).congr_deriv ?_
  rw [id_eq]
  field_simp
  ring

/-- The parabola starts with the slope of the identity. -/
theorem hasDerivAt_segment_start (hpos : 0 < h) : HasDerivAt k.segment 1 k.start := by
  simpa using hk.hasDerivAt_segment hpos k.start

/-- The parabola ends with the slope of the ratio. -/
theorem hasDerivAt_segment_stop (hpos : 0 < h) :
    HasDerivAt k.segment k.ratio.slope k.stop := by
  have hway : (k.stop - k.start) / (2 * h) = 1 := by
    rw [hk.start_eq, hk.stop_eq, div_eq_one_iff_eq (by positivity)]
    ring
  simpa [hway] using hk.hasDerivAt_segment hpos k.stop

variable [OrderTopology α]

/-- The curve leaves the identity without a corner. -/
theorem hasDerivAt_curve_start (hpos : 0 < h) : HasDerivAt k.curve 1 k.start := by
  have hlt : k.start < k.stop := by
    rw [hk.start_eq, hk.stop_eq]
    linarith
  have hstart : k.curve k.start = k.segment k.start :=
    hk.curve_of_mem hpos (left_mem_Icc.mpr hlt.le)
  -- below the start it is the identity, just above it the parabola
  refine hasDerivAt_of_sides ?_ ?_
  · exact (hasDerivAt_id _).hasDerivWithinAt.congr (fun x hx => hk.curve_of_le_start hx)
      (hk.curve_of_le_start le_rfl)
  · refine (hk.hasDerivAt_segment_start hpos).hasDerivWithinAt.congr_of_eventuallyEq ?_ hstart
    filter_upwards [self_mem_nhdsWithin, nhdsWithin_le_nhds (Iio_mem_nhds hlt)] with x hx hstop
    exact hk.curve_of_mem hpos ⟨hx, hstop.le⟩

/-- The curve meets the line of the ratio without a corner. -/
theorem hasDerivAt_curve_stop (hpos : 0 < h) : HasDerivAt k.curve k.ratio.slope k.stop := by
  have hlt : k.start < k.stop := by
    rw [hk.start_eq, hk.stop_eq]
    linarith
  have hstop : k.curve k.stop = k.segment k.stop :=
    hk.curve_of_mem hpos (right_mem_Icc.mpr hlt.le)
  -- just below the end it is the parabola, above it the line
  refine hasDerivAt_of_sides ?_ ?_
  · refine (hk.hasDerivAt_segment_stop hpos).hasDerivWithinAt.congr_of_eventuallyEq ?_ hstop
    filter_upwards [self_mem_nhdsWithin, nhdsWithin_le_nhds (Ioi_mem_nhds hlt)] with x hx hstart
    exact hk.curve_of_mem hpos ⟨hstart.le, hx⟩
  · exact (hasDerivAt_line k.ratio k.threshold k.stop).hasDerivWithinAt.congr
      (fun x hx => hk.curve_of_stop_le hx) (hk.curve_of_stop_le le_rfl)

/-- The curve never amplifies, keeps the order of levels, never reduces a higher level by less, and
stays below the line of the ratio above the lower end of the knee. At both ends of the knee the
pieces that meet there have the same value; of a knee with an inside they have the same slope
there, which is that of the curve. -/
theorem curve_compresses :
    (∀ x y, x ≤ y → k.curve x ≤ x ∧ k.curve x ≤ k.curve y ∧ k.curve y - y ≤ k.curve x - x) ∧
      (∀ x, k.start < x → k.curve x ≤ k.threshold + k.ratio.slope * (x - k.threshold)) ∧
      (h = 0 → k.start = k.stop ∧ k.ratio.line k.threshold k.start = k.start) ∧
      (0 < h →
        k.segment k.start = k.start ∧ k.segment k.stop = k.ratio.line k.threshold k.stop ∧
        HasDerivAt k.segment 1 k.start ∧ HasDerivAt id 1 k.start ∧ HasDerivAt k.curve 1 k.start ∧
        HasDerivAt k.segment k.ratio.slope k.stop ∧
        HasDerivAt (k.ratio.line k.threshold) k.ratio.slope k.stop ∧
        HasDerivAt k.curve k.ratio.slope k.stop) := by
  -- the order, the line, a knee without an inside and one with an inside
  refine ⟨fun x y hxy => ?_, fun x _ => hk.curve_le_line x, fun hzero => ?_, fun hpos => ?_⟩
  · exact ⟨hk.curve_le_self x, hk.monotone_curve hxy, hk.antitone_curve_sub hxy⟩
  · refine ⟨?_, hk.line_start hzero⟩
    rw [hk.start_eq, hk.stop_eq, hzero, sub_zero, add_zero]
  · exact ⟨hk.segment_start hpos, hk.segment_stop hpos, hk.hasDerivAt_segment_start hpos,
      hasDerivAt_id _, hk.hasDerivAt_curve_start hpos, hk.hasDerivAt_segment_stop hpos,
      hasDerivAt_line k.ratio k.threshold k.stop, hk.hasDerivAt_curve_stop hpos⟩

end Exact

/-- A ratio of four to one over the rationals, with the threshold at `-2` and a knee of one. -/
theorem curve_compresses_rat :
    ∃ k : Knee ℚ, k.Exact (1 / 2) ∧ k.curve (-2) ≤ -2 ∧ k.curve (-2) ≤ k.curve 3 ∧
      k.curve 3 - 3 ≤ k.curve (-2) - -2 ∧
      HasDerivAt k.curve 1 (-5 / 2) ∧ HasDerivAt k.curve (1 / 4) (-3 / 2) := by
  have hk : Exact (α := ℚ)
      { threshold := -2, width := 2, ratio := .finite 4, linearStart := 1 / 16,
        linearStop := 1 / 4, start := -5 / 2, stop := -3 / 2, compressedStop := -15 / 8 }
      (1 / 2) := by
    -- the ends lie half a unit from the threshold, and the slope is a quarter
    refine ⟨by norm_num, by norm_num, by norm_num, ?_, ?_, by norm_num⟩
    · norm_num [Ratio.slope]
    · rintro r ⟨⟩
      norm_num
  obtain ⟨horder, -, -, hslopes⟩ := hk.curve_compresses
  obtain ⟨hself, hkeep, hmore⟩ := horder (-2) 3 (by norm_num)
  obtain ⟨-, -, -, -, hstart, -, -, hstop⟩ := hslopes (by norm_num)
  exact ⟨_, hk, hself, hkeep, hmore, hstart, hstop⟩

end Slopes

/-! ### The knee that is made -/

/-- Over the reals the logarithms of the ends lie half of that of the width around the threshold. -/
theorem exact_make {threshold width : ℝ} {ratio : Ratio ℝ} (hthreshold : 0 < threshold)
    (hratio : ∀ {r}, ratio = .finite r → 1 ≤ r) (hwidth : 1 ≤ width) :
    (make threshold ratio width).Exact (Real.log width / 2) where
  half_nonneg := div_nonneg (Real.log_nonneg hwidth) zero_le_two
  start_eq := start_make ratio hthreshold hwidth
  stop_eq := stop_make ratio hthreshold hwidth
  compressedStop_eq := by
    have hstop := stop_make ratio hthreshold hwidth
    have hcompressed : (make threshold ratio width).compressedStop =
        ratio.line (Real.log threshold) (make threshold ratio width).stop := rfl
    rw [hcompressed, hstop, Ratio.line_eq]
    simp only [make, Elementary.ln]
    ring
  one_le_ratio := hratio
  one_lt_width_iff := by
    refine ⟨fun hlt => half_pos (Real.log_pos hlt), fun hpos => ?_⟩
    exact (Real.log_pos_iff (zero_le_one.trans hwidth)).mp (by linarith)

/-- The gain that is applied to a magnitude is the difference of logarithms that the curve makes. -/
theorem applied_peak_eq {threshold width level : ℝ} (ratio : Ratio ℝ) (hthreshold : 0 < threshold)
    (hwidth : 1 ≤ width) (hlevel : 0 < level) :
    let k := make threshold ratio width
    k.applied .peak level = Real.exp (k.curve (Real.log level) - Real.log level) := by
  intro k
  -- the logarithm tells whether the level is above the start of the knee
  have hsqrt : 0 < √width := Real.sqrt_pos.mpr (zero_lt_one.trans_le hwidth)
  have hstart : k.start < Real.log level ↔ k.linearStart < level :=
    Real.log_lt_log_iff (div_pos hthreshold hsqrt) hlevel
  unfold applied curve
  by_cases hlt : k.linearStart < level
  · rw [if_pos ⟨hlevel, hlt⟩, if_pos (hstart.mpr hlt)]
    rfl
  -- up to the start the gain is one, and the difference is zero
  · rw [if_neg fun hengages => hlt hengages.2, if_neg fun h => hlt (hstart.mp h), sub_self,
      Real.exp_zero]

end Knee

end DynamicRange
