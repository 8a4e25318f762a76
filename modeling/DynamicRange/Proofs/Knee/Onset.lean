import DynamicRange.Engine
import DynamicRange.Proofs.Knee.Real
import Mathlib.Topology.Order.OrderClosed

/-!
# Where the compression sets in

The engine compares the detector level with the lower end of the knee, while the curve reads the
level as the magnitude behind it. Under `peak` these are the same. Under `rms` the level is the
square of the magnitude, so between the lower end of the knee and its square root there are
magnitudes that the engine leaves alone. Where the level passes the lower end of the knee the
magnitude is already above it, and the gain falls from one in a jump.

## Key results

- `Knee.Regular.gain_lt_one`: the curve reduces every magnitude above the lower end of the knee
- `Knee.applied_onset`: where the compression sets in, and when the gain has no jump there
- `Knee.not_forall_engages_iff`: a level at which the compression has not set in
-/

namespace DynamicRange

open Topology

namespace Knee

/-- The magnitude behind a detector level, as the curve reads it. -/
noncomputable def magnitude (detection : Detection) (level : ℝ) : ℝ :=
  Elementary.exp (levelLog detection level)

/-- The gain of a curve that is applied to all magnitudes above the lower end of the knee. -/
noncomputable def gainAboveStart (k : Knee ℝ) (detection : Detection) (level : ℝ) : ℝ :=
  if k.linearStart < magnitude detection level then k.gain detection level else 1

variable {k : Knee ℝ} {detection : Detection} {level : ℝ}

/-! ### Levels and magnitudes -/

/-- Under `peak` the curve reads the logarithm of the level. -/
theorem levelLog_peak (level : ℝ) : levelLog .peak level = Real.log level := rfl

/-- Under `rms` the curve reads half of the logarithm of the level. -/
theorem levelLog_rms (level : ℝ) : levelLog .rms level = Real.log level / 2 := by
  have hhalf : levelLog .rms level = Real.log level * 0.5 := rfl
  rw [hhalf]
  norm_num
  ring

/-- The logarithm of the magnitude is what the curve reads. -/
theorem log_magnitude (detection : Detection) (level : ℝ) :
    Real.log (magnitude detection level) = levelLog detection level := Real.log_exp _

/-- Under `peak` the level is the magnitude. -/
theorem magnitude_peak (hlevel : 0 < level) : magnitude .peak level = level :=
  Real.exp_log hlevel

/-- Under `rms` the level is the square of the magnitude. -/
theorem magnitude_rms (hlevel : 0 < level) : magnitude .rms level = √level := by
  have hmagnitude : magnitude .rms level = Real.exp (levelLog .rms level) := rfl
  rw [hmagnitude, levelLog_rms, ← Real.log_sqrt hlevel.le,
    Real.exp_log (Real.sqrt_pos.mpr hlevel)]

/-- What the curve reads has no jump at a positive level. -/
theorem continuousAt_levelLog (hlevel : 0 < level) :
    ContinuousAt (levelLog detection) level := by
  have hlog := Real.continuousAt_log hlevel.ne'
  cases detection with
  | peak => exact hlog
  | rms =>
    have hhalf : levelLog .rms = fun x : ℝ => Real.log x / 2 := funext levelLog_rms
    rw [hhalf]
    exact hlog.div_const 2

namespace Regular

variable (h : k.Regular)
include h

/-- The curve is applied to the levels above the lower end of the knee. -/
theorem engages_iff : k.engages level ↔ k.linearStart < level :=
  ⟨And.right, fun hlt => ⟨h.linearStart_pos.trans hlt, hlt⟩⟩

/-- A magnitude is above the lower end of the knee just when its logarithm is. -/
theorem linearStart_lt_magnitude_iff :
    k.linearStart < magnitude detection level ↔ k.start < levelLog detection level := by
  rw [h.start_eq]
  exact (Real.log_lt_iff_lt_exp h.linearStart_pos).symm

/-! ### The gain -/

/-- A magnitude above the lower end of the knee is reduced. -/
theorem gain_lt_one (hmagnitude : k.linearStart < magnitude detection level) :
    k.gain detection level < 1 := by
  have hlt := h.output_lt_self (h.linearStart_lt_magnitude_iff.mp hmagnitude)
  exact Real.exp_lt_one_iff.mpr (sub_neg.mpr hlt)

/-- At the lower end of the knee the curve has gain one. -/
theorem gain_eq_one (hlevel : levelLog detection level = k.start) :
    k.gain detection level = 1 := by
  have hgain : k.gain detection level =
      Real.exp (k.output (levelLog detection level) - levelLog detection level) := rfl
  rw [hgain, hlevel, h.output_start, sub_self, Real.exp_zero]

/-- The gain of the curve has no jump at a positive level. -/
theorem continuousAt_gain (hlevel : 0 < level) : ContinuousAt (k.gain detection) level := by
  have hlog : ContinuousAt (levelLog detection) level := continuousAt_levelLog hlevel
  -- the exponential of a difference of continuous functions
  exact Real.continuous_exp.continuousAt.comp
    ((h.continuous_output.continuousAt.comp hlog).sub hlog)

/-- The gain is that of the curve above the lower end of the knee, and one up to it. -/
theorem applied_eq :
    k.applied detection level =
      if k.linearStart < level then k.gain detection level else 1 := by
  simp only [applied, h.engages_iff]

/-- The gain passes the lower end of the knee without a jump when the curve has gain one there. -/
theorem continuousAt_applied_iff :
    ContinuousAt (k.applied detection) k.linearStart ↔ k.gain detection k.linearStart = 1 := by
  have hgain : ContinuousAt (k.gain detection) k.linearStart :=
    h.continuousAt_gain h.linearStart_pos
  constructor
  · intro happlied
    -- from above the gain tends to that of the curve, and at the end itself it is one
    have hone : k.applied detection k.linearStart = 1 := by
      rw [h.applied_eq, if_neg (lt_irrefl _)]
    have habove : (k.applied detection) =ᶠ[𝓝[>] k.linearStart] k.gain detection :=
      eventually_nhdsWithin_of_forall fun level (hlt : k.linearStart < level) => by
        rw [h.applied_eq, if_pos hlt]
    have hlimit := (happlied.tendsto.mono_left nhdsWithin_le_nhds).congr' habove
    rw [hone] at hlimit
    exact tendsto_nhds_unique (hgain.tendsto.mono_left nhdsWithin_le_nhds) hlimit
  · intro hone
    -- below the end the gain is that of the curve at the end
    have happlied : k.applied detection =
        fun level => k.gain detection (max level k.linearStart) := by
      funext level
      rw [h.applied_eq]
      split
      next hlt => rw [max_eq_left hlt.le]
      next hle => rw [max_eq_right (not_lt.mp hle), hone]
    rw [happlied]
    refine ContinuousAt.comp (g := k.gain detection) ?_ (by fun_prop)
    rw [max_self]
    exact hgain

/-- At a lower end up to full scale, the curve has gain one under `peak`, and under `rms` only at
full scale itself. -/
theorem gain_linearStart_eq_one_iff (hone : k.linearStart ≤ 1) :
    k.gain detection k.linearStart = 1 ↔ detection = .peak ∨ k.linearStart = 1 := by
  -- under `peak` the end is read as it is, under `rms` as half of its logarithm
  cases detection with
  | peak => simpa using h.gain_eq_one (levelLog_peak _ |>.trans h.start_eq.symm)
  | rms =>
    have hlog : levelLog .rms k.linearStart = k.start / 2 := by rw [levelLog_rms, h.start_eq]
    rcases hone.lt_or_eq with hlt | heq
    · -- half of a negative logarithm lies above it
      have hstart : k.start < 0 := h.start_eq ▸ Real.log_neg h.linearStart_pos hlt
      have hmagnitude : k.linearStart < magnitude .rms k.linearStart := by
        rw [h.linearStart_lt_magnitude_iff, hlog]
        linarith
      simpa [hlt.ne] using (h.gain_lt_one hmagnitude).ne
    -- at full scale the logarithm is zero, and so is half of it
    · have hstart : k.start = 0 := by rw [h.start_eq, heq, Real.log_one]
      have hgain : k.gain .rms k.linearStart = 1 := h.gain_eq_one (by rw [hlog, hstart, zero_div])
      exact iff_of_true hgain (.inr heq)

end Regular

/-! ### Magnitudes that the engine misses -/

/-- A level that is a square up to the lower end of the knee, of a magnitude above that end. -/
def Misses (k : Knee ℝ) (detection : Detection) (level : ℝ) : Prop :=
  detection = .rms ∧ k.linearStart ^ 2 < level ∧ level ≤ k.linearStart

namespace Regular

variable (h : k.Regular)
include h

/-- The magnitude behind a level above the lower end of the knee is above it as well. -/
theorem linearStart_lt_magnitude (hone : k.linearStart ≤ 1) (hlt : k.linearStart < level) :
    k.linearStart < magnitude detection level := by
  have hlevel : 0 < level := h.linearStart_pos.trans hlt
  cases detection with
  | peak => rwa [magnitude_peak hlevel]
  | rms =>
    -- a number up to one is not above its square root
    rw [magnitude_rms hlevel, Real.lt_sqrt h.linearStart_pos.le]
    nlinarith [h.linearStart_pos]

/-- A positive level is missed just when only its magnitude is above the lower end of the knee. -/
theorem engages_iff_magnitude_iff (hone : k.linearStart ≤ 1) (hlevel : 0 < level) :
    (k.engages level ↔ k.linearStart < magnitude detection level) ↔
      ¬k.Misses detection level := by
  have himp : k.linearStart < level → k.linearStart < magnitude detection level :=
    h.linearStart_lt_magnitude hone
  rw [h.engages_iff, Misses]
  cases detection with
  -- under `peak` the level is its magnitude, and none is missed
  | peak => simp [magnitude_peak hlevel]
  | rms =>
    -- under `rms` the comparison of the magnitude is that of the level with the square of the end
    rw [magnitude_rms hlevel, Real.lt_sqrt h.linearStart_pos.le] at himp ⊢
    simp only [true_and, not_and, not_le]
    exact ⟨fun hiff hsquare => hiff.mpr hsquare, fun hrev => ⟨himp, hrev⟩⟩

/-- The gain is that of the curve for all magnitudes just when the level is not missed. -/
theorem applied_eq_gainAboveStart_iff (hone : k.linearStart ≤ 1) (hlevel : 0 < level) :
    k.applied detection level = k.gainAboveStart detection level ↔
      ¬k.Misses detection level := by
  rw [← h.engages_iff_magnitude_iff hone hlevel, h.engages_iff, h.applied_eq, gainAboveStart]
  by_cases hmagnitude : k.linearStart < magnitude detection level
  · -- the curve would reduce the level: gain one differs from that
    rw [if_pos hmagnitude, iff_true_right hmagnitude]
    split
    next hlt => exact iff_of_true rfl hlt
    next hle => exact iff_of_false (h.gain_lt_one hmagnitude).ne' hle
  · -- neither side applies the curve
    have hlevel : ¬k.linearStart < level :=
      fun hlt => hmagnitude (h.linearStart_lt_magnitude hone hlt)
    rw [if_neg hmagnitude, if_neg hlevel]
    exact iff_of_true rfl (iff_of_false hlevel hmagnitude)

end Regular

variable {threshold width : ℝ} {ratio : Ratio ℝ}

/-- The lower end of a knee that is made lies up to full scale. -/
theorem linearStart_make_le_one (hthreshold : threshold ≤ 1) (hwidth : 1 ≤ width) :
    (make threshold ratio width).linearStart ≤ 1 := by
  have hsqrt : 1 ≤ √width := Real.one_le_sqrt.mpr hwidth
  exact (div_le_one (zero_lt_one.trans_le hsqrt)).mpr (hthreshold.trans hsqrt)

/-- Without width the lower end of the knee is the threshold. -/
theorem linearStart_make_one : (make threshold ratio 1).linearStart = threshold := by
  have hstart : (make threshold ratio 1).linearStart = threshold / √1 := rfl
  rw [hstart, Real.sqrt_one, div_one]

/-- Without width the curve follows the line of the ratio above the threshold, and only there. -/
theorem gainAboveStart_make_one (detection : Detection) (level : ℝ) :
    (make threshold ratio 1).gainAboveStart detection level =
      if threshold < magnitude detection level then
        Real.exp (ratio.line (Real.log threshold) (Real.log (magnitude detection level)) -
          Real.log (magnitude detection level))
      else 1 := by
  have hline (x : ℝ) : (make threshold ratio 1).output x = ratio.line (Real.log threshold) x :=
    output_of_width_le_one le_rfl
  rw [gainAboveStart, linearStart_make_one, log_magnitude, ← hline]
  rfl

/-- The compression sets in at the lower end of the knee for every level but those of magnitudes
that the engine misses. The gain passes that end without a jump under `peak`, and under `rms` only
when the end is at full scale. Without width, the lower end is the threshold and the curve is the
line of the ratio. -/
theorem applied_onset (hthreshold : 0 < threshold) (hone : threshold ≤ 1)
    (hratio : ratio.Reduces) (hwidth : 1 ≤ width) (detection : Detection) :
    (∀ level, 0 < level →
      (((make threshold ratio width).engages level ↔
          (make threshold ratio width).linearStart < magnitude detection level) ↔
        ¬(make threshold ratio width).Misses detection level) ∧
      ((make threshold ratio width).applied detection level =
          (make threshold ratio width).gainAboveStart detection level ↔
        ¬(make threshold ratio width).Misses detection level)) ∧
    (ContinuousAt ((make threshold ratio width).applied detection)
        (make threshold ratio width).linearStart ↔
      detection = .peak ∨ (make threshold ratio width).linearStart = 1) ∧
    (width = 1 → (make threshold ratio width).linearStart = threshold ∧
      ∀ level, (make threshold ratio width).gainAboveStart detection level =
        if threshold < magnitude detection level then
          Real.exp (ratio.line (Real.log threshold) (Real.log (magnitude detection level)) -
            Real.log (magnitude detection level))
        else 1) := by
  have hregular := regular_make hthreshold hratio hwidth
  have hstart : (make threshold ratio width).linearStart ≤ 1 :=
    linearStart_make_le_one hone hwidth
  refine ⟨fun level hlevel => ⟨?_, ?_⟩, ?_, ?_⟩
  -- the condition of the engine, then the gain it applies, then its jump at the end
  · exact hregular.engages_iff_magnitude_iff hstart hlevel
  · exact hregular.applied_eq_gainAboveStart_iff hstart hlevel
  · rw [hregular.continuousAt_applied_iff, hregular.gain_linearStart_eq_one_iff hstart]
  · rintro rfl
    exact ⟨linearStart_make_one, gainAboveStart_make_one detection⟩

/-- Under `rms`, a hard knee at three eighths makes the gain jump at the level three eighths. -/
theorem applied_onset_three_eighths :
    ¬ContinuousAt ((make (3 / 8 : ℝ) .limit 1).applied .rms)
      (make (3 / 8 : ℝ) .limit 1).linearStart := by
  have hjump := (@applied_onset (3 / 8) 1 .limit (by norm_num) (by norm_num) trivial le_rfl
    .rms).2.1
  rw [hjump, linearStart_make_one]
  -- the detection is not `peak`, and three eighths are not one
  rintro (hpeak | hone)
  · exact nomatch hpeak
  · norm_num at hone

/-- The level of a magnitude above the lower end of the knee need not be above it. -/
theorem not_forall_engages_iff :
    ¬∀ (threshold width : ℝ) (ratio : Ratio ℝ) (detection : Detection) (level : ℝ),
      0 < threshold → threshold ≤ 1 → ratio.Reduces → 1 ≤ width → 0 < level →
      ((make threshold ratio width).engages level ↔
        (make threshold ratio width).linearStart < magnitude detection level) := by
  intro hall
  have hiff := hall (3 / 8) 1 .limit .rms (1 / 4) (by norm_num) (by norm_num) trivial le_rfl
    (by norm_num)
  have hregular : (make (3 / 8 : ℝ) .limit 1).Regular := regular_make (by norm_num) trivial le_rfl
  -- the magnitude behind a quarter is one half
  have hhalf : magnitude .rms (1 / 4) = 1 / 2 := by
    rw [magnitude_rms (by norm_num), Real.sqrt_eq_iff_mul_self_eq (by norm_num) (by norm_num)]
    norm_num
  rw [hregular.engages_iff, linearStart_make_one, hhalf] at hiff
  norm_num at hiff

/-- The engine leaves the magnitude one half alone under a limit at three eighths. -/
example : ((Engine.ofSettings { threshold := 0.375, ratio := .limit, knee := 1 } 48000).toOption.map
    fun e => e.gainAt 0.25) = some 1 := by
  decide +kernel

end Knee

end DynamicRange
