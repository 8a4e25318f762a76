import DynamicRange.Knee
import Mathlib.Analysis.SpecialFunctions.Log.Basic
import Mathlib.Analysis.SpecialFunctions.Sqrt
import Mathlib.Tactic.FieldSimp
import Mathlib.Tactic.LinearCombination

/-!
# The static curve over the reals

In exact arithmetic the logarithms of the ends of the knee lie half the logarithm of its width
below and above that of the threshold. The cubic of the knee is then a parabola: inside the knee
the output falls behind the input by the square of the way into the knee.

## Key results

- `Knee.regular_make`: where the ends of the knee lie
- `Knee.Regular.output_of_lt_stop`, `Knee.output_of_stop_le`: the curve in closed form
- `Knee.Regular.output_start`, `Knee.Regular.output_lt_self`: where it leaves the identity
- `Knee.Regular.continuous_output`: it has no jump
-/

namespace DynamicRange

noncomputable instance : Elementary ℝ where
  exp := Real.exp
  ln := Real.log
  sqrt := Real.sqrt

/-- Whether a ratio reduces the signal: it is above one, or the limit. -/
def Ratio.Reduces : Ratio ℝ → Prop
  | .finite r => 1 < r
  | .limit => True

namespace Ratio

variable {ratio : Ratio ℝ}

/-- A ratio that reduces the signal has a slope below one. -/
theorem Reduces.slope_lt_one (h : ratio.Reduces) : ratio.slope < 1 := by
  cases ratio with
  | finite r =>
    rw [slope, div_lt_one (zero_lt_one.trans h)]
    exact h
  | limit => exact zero_lt_one

/-- The line of a ratio goes through the threshold, with the slope of the ratio. -/
theorem line_eq {α : Type} [Field α] (ratio : Ratio α) (threshold x : α) :
    ratio.line threshold x = threshold + ratio.slope * (x - threshold) := by
  cases ratio with
  | finite r => simp only [line, slope]; ring
  | limit => simp only [line, slope]; ring

end Ratio

namespace Knee

/-- Above the knee the curve is the line of the ratio. -/
theorem output_of_stop_le {k : Knee ℝ} {x : ℝ} (hx : k.stop ≤ x) :
    k.output x = x - (1 - k.ratio.slope) * (x - k.threshold) := by
  rw [output, if_neg (fun hlt => hlt.2.not_ge hx), Ratio.line_eq]
  ring

/-- A knee without width has nothing inside: the curve is the line of the ratio. -/
theorem output_of_width_le_one {k : Knee ℝ} {x : ℝ} (hwidth : k.width ≤ 1) :
    k.output x = k.ratio.line k.threshold x := by
  have hard : k.isHard = true := decide_eq_true hwidth
  rw [output, if_neg (fun hsoft => hsoft.1 hard)]

/-- A knee whose ends lie where exact arithmetic puts them, of a ratio that reduces the signal. -/
structure Regular (k : Knee ℝ) : Prop where
  one_le_width : 1 ≤ k.width
  reduces : k.ratio.Reduces
  linearStart_pos : 0 < k.linearStart
  start_eq : k.start = Real.log k.linearStart
  threshold_eq : k.threshold = k.start + Real.log k.width / 2
  stop_eq : k.stop = k.start + Real.log k.width
  compressedStop_eq : k.compressedStop = k.ratio.line k.threshold k.stop

/-- The logarithm of the lower end lies half of that of the width below the threshold's. -/
theorem start_make {threshold width : ℝ} (ratio : Ratio ℝ) (hthreshold : 0 < threshold)
    (hwidth : 1 ≤ width) :
    (make threshold ratio width).start = Real.log threshold - Real.log width / 2 := by
  have hsqrt : 0 < √width := Real.sqrt_pos.mpr (zero_lt_one.trans_le hwidth)
  show Real.log (threshold / √width) = _
  rw [Real.log_div hthreshold.ne' hsqrt.ne', Real.log_sqrt (zero_le_one.trans hwidth)]

/-- The logarithm of the upper end lies half of that of the width above the threshold's. -/
theorem stop_make {threshold width : ℝ} (ratio : Ratio ℝ) (hthreshold : 0 < threshold)
    (hwidth : 1 ≤ width) :
    (make threshold ratio width).stop = Real.log threshold + Real.log width / 2 := by
  have hsqrt : 0 < √width := Real.sqrt_pos.mpr (zero_lt_one.trans_le hwidth)
  show Real.log (threshold * √width) = _
  rw [Real.log_mul hthreshold.ne' hsqrt.ne', Real.log_sqrt (zero_le_one.trans hwidth)]

/-- The knee that is made of a positive threshold, in exact arithmetic. -/
theorem regular_make {threshold width : ℝ} {ratio : Ratio ℝ} (hthreshold : 0 < threshold)
    (hratio : ratio.Reduces) (hwidth : 1 ≤ width) : (make threshold ratio width).Regular := by
  have hsqrt : 0 < √width := Real.sqrt_pos.mpr (zero_lt_one.trans_le hwidth)
  refine
    { one_le_width := hwidth
      reduces := hratio
      linearStart_pos := div_pos hthreshold hsqrt
      start_eq := rfl
      threshold_eq := ?_
      stop_eq := ?_
      compressedStop_eq := rfl }
  -- the threshold is half of the width above the start, and the stop another half
  · rw [start_make ratio hthreshold hwidth]
    simp only [make, Elementary.ln]
    ring
  · rw [start_make ratio hthreshold hwidth, stop_make ratio hthreshold hwidth]
    simp only [make]
    ring

namespace Regular

variable {k : Knee ℝ} {x : ℝ} (h : k.Regular)
include h

/-- A knee has no negative width. -/
theorem log_width_nonneg : 0 ≤ Real.log k.width := Real.log_nonneg h.one_le_width

/-- The threshold lies at or below the end of the knee. -/
theorem threshold_le_stop : k.threshold ≤ k.stop := by
  have hlog := h.log_width_nonneg
  rw [h.threshold_eq, h.stop_eq]
  linarith

/-- A knee without width ends where it starts. -/
theorem stop_eq_start (hwidth : k.width ≤ 1) : k.stop = k.start := by
  rw [h.stop_eq, hwidth.antisymm h.one_le_width, Real.log_one, add_zero]

/-! ### The curve in closed form -/

/-- Inside the knee the output falls behind the input by the square of the way into the knee. -/
theorem output_of_lt_stop (hwidth : 1 < k.width) (hx : x < k.stop) :
    k.output x = x - (1 - k.ratio.slope) * ((x - k.start) ^ 2 / (2 * Real.log k.width)) := by
  have hlog : Real.log k.width ≠ 0 := (Real.log_pos hwidth).ne'
  have hsoft : ¬k.isHard = true := fun hard => (of_decide_eq_true hard).not_gt hwidth
  have hspan : k.stop - k.start = Real.log k.width := by
    rw [h.stop_eq]
    ring
  rw [output, if_pos ⟨hsoft, hx⟩, hermite, hspan, h.compressedStop_eq, Ratio.line_eq,
    h.threshold_eq, h.stop_eq]
  -- the cubic terms cancel because the threshold is halfway between the ends
  field_simp
  ring

/-- The curve leaves the identity at the lower end of the knee. -/
theorem output_start : k.output k.start = k.start := by
  rcases h.one_le_width.lt_or_eq with hwidth | hwidth
  -- with width the start is inside the knee, and the square is zero there
  · have hlog := Real.log_pos hwidth
    have hlt : k.start < k.stop := by
      rw [h.stop_eq]
      linarith
    rw [h.output_of_lt_stop hwidth hlt, sub_self]
    ring
  · -- without width the line of the ratio starts at the threshold
    have hthreshold : k.threshold = k.start := by
      rw [h.threshold_eq, ← hwidth, Real.log_one]
      ring
    rw [output_of_stop_le (h.stop_eq_start hwidth.ge).le, hthreshold]
    ring

/-- Above the lower end of the knee the output is below the input. -/
theorem output_lt_self (hx : k.start < x) : k.output x < x := by
  have hslope : 0 < 1 - k.ratio.slope := sub_pos.mpr h.reduces.slope_lt_one
  rcases lt_or_ge x k.stop with hstop | hstop
  · -- a level inside the knee: so there is an inside
    have hwidth : 1 < k.width := by
      refine h.one_le_width.lt_of_ne fun hwidth => ?_
      rw [h.stop_eq_start hwidth.ge] at hstop
      exact hx.not_gt hstop
    have hlog := Real.log_pos hwidth
    have hway : 0 < (x - k.start) ^ 2 / (2 * Real.log k.width) := by
      have := sub_pos.mpr hx
      positivity
    rw [h.output_of_lt_stop hwidth hstop]
    linarith [mul_pos hslope hway]
  · -- a knee with width ends above the threshold, one without starts there
    have hthreshold : k.threshold < x := by
      rcases h.threshold_le_stop.lt_or_eq with hlt | heq
      · exact hlt.trans_le hstop
      · have hlog := h.threshold_eq
        have hstart : k.threshold = k.start := by
          rw [h.stop_eq] at heq
          linarith
        exact hstart ▸ hx
    rw [output_of_stop_le hstop]
    linarith [mul_pos hslope (sub_pos.mpr hthreshold)]

/-- The curve has no jump, also not at the upper end of the knee. -/
theorem continuous_output : Continuous k.output := by
  rcases h.one_le_width.lt_or_eq with hwidth | hwidth
  · have hlog := Real.log_pos hwidth
    have hpieces : k.output = fun x => if k.stop ≤ x
        then x - (1 - k.ratio.slope) * (x - k.threshold)
        else x - (1 - k.ratio.slope) * ((x - k.start) ^ 2 / (2 * Real.log k.width)) := by
      funext x
      split
      next hx => exact output_of_stop_le hx
      next hx => exact h.output_of_lt_stop hwidth (not_le.mp hx)
    rw [hpieces]
    refine Continuous.if_le (by fun_prop) (by fun_prop) continuous_const continuous_id ?_
    rintro x rfl
    -- both pieces are half of the width above the threshold
    rw [h.threshold_eq, h.stop_eq]
    field_simp
    ring
  · have hline : k.output = fun x => k.threshold + k.ratio.slope * (x - k.threshold) := by
      funext x
      rw [output_of_width_le_one hwidth.ge, Ratio.line_eq]
    rw [hline]
    fun_prop

end Regular

end Knee

end DynamicRange
