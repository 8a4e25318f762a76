import DynamicRange.Proofs.Knee.Single

/-!
# Where the curve is evaluated

The curve divides by the width of the knee and takes a logarithm. Rounding can close a knee that is
meant to be open: its ends have the same logarithm while it still counts as soft. What keeps such a
knee from being divided by is the order of the comparisons. The engine compares the level with the
lower end, the logarithm keeps that order, and the interpolation needs a logarithm below that of
the upper end. Under `rms` the logarithm is halved, which can only move it up to the lower end,
since no threshold is above one.

## Key results

- `Knee.linear_bounds_make`: the levels at the ends of the knee
- `Knee.Sound.way_bounds`: the way into the knee
- `Knee.interpolates_of_validate`: the curve is only evaluated inside its domain
-/

namespace DynamicRange

open Binary Scalar

namespace Knee

variable {k : Knee Float32} {detection : Detection} {level : Float32}

/-- The threshold lies between the ends of the knee. -/
theorem linear_bounds_make {s : Settings} (h : s.Valid) :
    let k := make s.threshold s.ratio s.knee
    0 < k.linearStart ∧ k.linearStart ≤ s.threshold ∧ s.threshold ≤ k.linearStop := by
  intro k
  -- the bounds of the settings bound the root of the knee and with it both ends
  obtain ⟨hthreshold, hge, hle⟩ := h.threshold_bounds
  obtain ⟨hknee, hknee_ge, hknee_le⟩ := h.knee_bounds
  obtain ⟨hroot, hroot_ge, hroot_le⟩ := sqrt_bounds hknee hknee_ge hknee_le
  obtain ⟨hstart, hstart_ge, hstart_le⟩ :=
    linearStart_bounds hthreshold hge hle hroot hroot_ge hroot_le
  obtain ⟨hstop, hstop_ge, -⟩ :=
    linearStop_bounds hthreshold hge hle hroot hroot_ge hroot_le
  refine ⟨?_, (le_iff hstart hthreshold).mpr hstart_le, (le_iff hthreshold hstop).mpr hstop_ge⟩
  refine (lt_iff near_zero.finite hstart).mpr ?_
  rw [near_zero.value_eq]
  exact (zpow_pos two_pos _).trans_le hstart_ge

/-- The logarithms keep the order of the ends. -/
theorem Sound.log_bounds (h : k.Sound) : k.start ≤ k.threshold ∧ k.threshold ≤ k.stop :=
  ⟨(le_iff h.start_finite h.threshold_finite).mpr h.start_le,
    (le_iff h.threshold_finite h.stop_finite).mpr h.threshold_le⟩

/-- A level to which the curve is applied has a logarithm from that of the lower end on. -/
theorem Sound.le_levelLog (h : k.Sound) (detection : Detection) (hlevel : Finite level)
    (hengages : k.engages level) :
    Finite (levelLog detection level) ∧ k.start ≤ levelLog detection level := by
  -- the level is above the start, and the logarithm keeps that order
  have hlt := (lt_iff h.linearStart_finite hlevel).mp hengages.2
  obtain ⟨hx, hge, -⟩ := h.levelLog_bounds detection hlevel hlt.le
  exact ⟨hx, (le_iff h.start_finite hx).mpr hge⟩

/-- Below the upper end of the knee there is a way into it, a share between zero and one of a width
that is not zero. -/
theorem Sound.share_bounds (h : k.Sound) {x : Float32} (hx : Finite x) (hge : k.start ≤ x)
    (hlt : x < k.stop) :
    0 < k.stop - k.start ∧ 0 ≤ (x - k.start) / (k.stop - k.start) ∧
      (x - k.start) / (k.stop - k.start) ≤ 1 := by
  have hge' := (le_iff h.start_finite hx).mp hge
  have hlt' := (lt_iff hx h.stop_finite).mp hlt
  -- the ends are near enough to each other for an exact difference in range
  have hwidth : value k.stop - value k.start ≤ 2 ^ (4 : ℤ) := by
    have hstart := h.le_start
    have hstop := h.stop_le
    norm_num at hstart hstop ⊢
    linarith
  have hall : Finite (k.stop - k.start) := by
    have habs : |value k.stop - value k.start| ≤ 2 ^ (4 : ℤ) := by
      rwa [abs_of_nonneg (by linarith)]
    exact (sub_rounds h.stop_finite h.start_finite (nearest_lt_overflow habs (by decide))).finite
  -- the rounded way is not above the rounded width, and the quotient of the two not above one
  obtain ⟨hpos, hshare, hshare_ge, hshare_le⟩ :=
    way_bounds hx h.start_finite h.stop_finite hge' hlt' hwidth
  refine ⟨(lt_iff near_zero.finite hall).mpr ?_, (le_iff near_zero.finite hshare).mpr ?_,
    (le_iff hshare near_one.finite).mpr ?_⟩
  · rwa [near_zero.value_eq]
  · rwa [near_zero.value_eq]
  · rwa [near_one.value_eq]

/-- A knee that rounding has closed is not looked into, soft or not. -/
theorem Sound.output_of_closed (h : k.Sound) (hclosed : k.stop ≤ k.start) (hlevel : Finite level)
    (hengages : k.engages level) :
    k.output (levelLog detection level) = k.ratio.line k.threshold (levelLog detection level) := by
  -- a logarithm from the lower end on is not below the upper one
  obtain ⟨hx, hge⟩ := h.le_levelLog detection hlevel hengages
  have hge' := (le_iff h.start_finite hx).mp hge
  have hclosed' := (le_iff h.stop_finite h.start_finite).mp hclosed
  rw [output, if_neg]
  rintro ⟨-, hlt⟩
  exact ((lt_iff hx h.stop_finite).mp hlt).not_ge (hclosed'.trans hge')

/-- A knee a little wider than none is soft, and rounding has closed it. -/
example :
    (make 0.125 (.finite 2) (Float32.ofBits 0x3f800001)).isHard = false ∧
      (make 0.125 (.finite 2) (Float32.ofBits 0x3f800001)).start =
        (make 0.125 (.finite 2) (Float32.ofBits 0x3f800001)).stop := by
  constructor
  · decide +kernel
  · exact Float32.toBits_inj.mp (by decide +kernel)

/-- With valid settings the threshold lies between the ends of the knee, as a level and as a
logarithm. Whenever the curve is applied to a level, that level is above zero; and whenever it
interpolates, the logarithm of the level lies in the knee, which has a width there, and the way into
the knee is a share between zero and one. -/
theorem interpolates_of_validate {s : Settings} (hs : s.validate = .ok ()) :
    let k := make s.threshold s.ratio s.knee
    (0 < k.linearStart ∧ k.linearStart ≤ s.threshold ∧ s.threshold ≤ k.linearStop) ∧
      (k.start ≤ k.threshold ∧ k.threshold ≤ k.stop) ∧
      ∀ detection level, level.isFinite = true → k.engages level →
        let x := levelLog detection level
        0 < level ∧ x.isFinite = true ∧
          (¬k.isHard ∧ x < k.stop →
            k.start ≤ x ∧ x < k.stop ∧ 0 < k.stop - k.start ∧
              0 ≤ (x - k.start) / (k.stop - k.start) ∧
              (x - k.start) / (k.stop - k.start) ≤ 1) := by
  intro k
  have hvalid := (Settings.validate_eq_ok_iff s).mp hs
  have hsound : k.Sound := sound_make hvalid
  refine ⟨linear_bounds_make hvalid, hsound.log_bounds, fun detection level hlevel hengages => ?_⟩
  intro x
  -- where the curve is applied the level has a logarithm from the lower end on
  obtain ⟨hx, hge⟩ := hsound.le_levelLog detection hlevel hengages
  refine ⟨hengages.1, hx, fun hinside => ⟨hge, hinside.2, ?_⟩⟩
  exact hsound.share_bounds hx hge hinside.2

/-- The threshold of the default settings lies inside their knee; and a knee that rounding has
closed. -/
theorem interpolates_of_validate_default :
    (let k : Knee Float32 := make 0.125 (.finite 2) 2.82843
      let x := levelLog .peak (0.125 : Float32)
      k.start ≤ x ∧ x < k.stop ∧ 0 < k.stop - k.start ∧
        0 ≤ (x - k.start) / (k.stop - k.start) ∧ (x - k.start) / (k.stop - k.start) ≤ 1) ∧
      let k : Knee Float32 := make 0.125 (.finite 2) (Float32.ofBits 0x3f800001)
      0 < k.linearStart ∧ (levelLog .rms (1 : Float32)).isFinite = true := by
  constructor
  -- the threshold engages the curve, and is inside the knee
  · have hdomain := (interpolates_of_validate (s := {}) rfl).2.2 .peak 0.125 (by decide)
      ⟨by decide +kernel, by decide +kernel⟩
    exact hdomain.2.2 ⟨by decide +kernel, by decide +kernel⟩
  -- a level of one is above the threshold
  · have hall := interpolates_of_validate (s := { knee := Float32.ofBits 0x3f800001 }) rfl
    have hdomain := hall.2.2 .rms 1 (by decide) ⟨by decide +kernel, by decide +kernel⟩
    exact ⟨hall.1.1, hdomain.2.1⟩

end Knee

end DynamicRange
