import DynamicRange.Proofs.Engine.Bypass
import DynamicRange.Proofs.Knee.Attenuation
import DynamicRange.Proofs.Scalar.Decibel
import DynamicRange.Proofs.Scalar.Scaling

/-!
# Compression does not amplify

The factor of a sample grows with the gain, step by step also when it is rounded. So where the gain
is not above one, the factor is not above that of a gain of one, and a sample comes out no louder
than its product with that factor; nothing is to be added for rounding. With a knee that bends the
gain is never above one. With another, and with a ratio of one, it is above one by `2 ^ -17` at
most, and the samples and the meter are off by little more.

## Key results

- `blend_mono`, `blend_le`: the factor of a gain
- `Regular.factors_mem`, `Regular.lastGain_mem`: the factors of a stream, and the gain after it
- `Regular.attenuates_output`: the samples of a call
- `attenuates_of_ofSettings`: calls from a new engine on
-/

namespace DynamicRange

open Binary Scalar

/-- The factor for a gain of one. -/
def Settings.ceiling (s : Settings) : Float32 := s.makeup * s.mix + (1 - s.mix)

/-- The bounds of the gain, as floats are compared. -/
theorem Knee.Sound.gain_bounds {k : Knee Float32} (h : k.Sound) (hb : k.Balanced)
    (detection : Detection) {level : Float32} (hlevel : Finite level) (hengages : k.engages level) :
    0 < k.gain detection level ∧ k.gain detection level ≤ .ofBits 0x3f800040 ∧
      (k.Bends ∨ k.Clear (levelLog detection level) → k.gain detection level ≤ 1) := by
  -- the bounds of the value, turned into comparisons of floats
  obtain ⟨hgain, hpos, hle, hclear⟩ := h.gain_mem hb detection hlevel hengages
  have hbends := (h.applied_mem hb detection hlevel).2.2.2
  rw [applied, if_pos hengages] at hbends
  refine ⟨(lt_iff near_zero.finite hgain).mpr (near_zero.value_eq ▸ hpos),
    (le_iff hgain near_gain_bound.finite).mpr (near_gain_bound.value_eq ▸ hle), fun hcurve => ?_⟩
  exact (le_iff hgain near_one.finite).mpr (near_one.value_eq ▸ hcurve.elim hbends hclear)

namespace Engine

/-! ### The factor of a gain -/

section Blend

variable {e : Engine} (hvalid : e.settings.Valid) {gain : Float32} (hgain : Finite gain)
  (hnonneg : 0 ≤ value gain) (hle : value gain ≤ 2)
include hvalid hgain hnonneg hle

/-- The operations of the blend. Nothing overflows, and nothing is below zero. -/
private theorem blend_rounds :
    let made := gain * e.settings.makeup
    (Rounds made (value gain * value e.settings.makeup) ∧ 0 ≤ value made) ∧
      (Rounds (made * e.settings.mix) (value made * value e.settings.mix) ∧
        0 ≤ value (made * e.settings.mix)) ∧
      (Rounds (1 - e.settings.mix) (1 - value e.settings.mix) ∧
        0 ≤ value (1 - e.settings.mix)) ∧
      Rounds (e.blend gain) (value (made * e.settings.mix) + value (1 - e.settings.mix)) ∧
      value (e.blend gain) ≤ 2 ^ (8 : ℤ) := by
  -- the four operations in their order: make-up, mix, the dry share and the sum
  intro made
  obtain ⟨hmakeup, hmakeup₁, hmakeup₂⟩ := hvalid.makeup_bounds
  obtain ⟨hmix, hmix₁, hmix₂⟩ := hvalid.mix_bounds
  -- zero and the powers of two that bound the exact results are numbers, so rounding keeps the bounds
  have hmade_nonneg : 0 ≤ value gain * value e.settings.makeup := mul_nonneg hnonneg (by linarith)
  have hmade_le : value gain * value e.settings.makeup ≤ 2 ^ (7 : ℤ) :=
    (mul_le_mul hle hmakeup₂ (by linarith) two_pos.le).trans (by norm_num)
  have hmade := mul_rounds hgain hmakeup (nearest_lt_overflow (k := 7)
    ((abs_of_nonneg hmade_nonneg).trans_le hmade_le) (by decide))
  obtain ⟨hmade_nonneg, hmade_le⟩ :=
    hmade.mem isNumber_zero (isNumber_zpow (by decide)) hmade_nonneg hmade_le
  have hwet_nonneg : 0 ≤ value made * value e.settings.mix := mul_nonneg hmade_nonneg hmix₁
  have hwet_le : value made * value e.settings.mix ≤ 2 ^ (7 : ℤ) :=
    (mul_le_of_le_one_right hmade_nonneg hmix₂).trans hmade_le
  have hwet := mul_rounds hmade.finite hmix (nearest_lt_overflow (k := 7)
    ((abs_of_nonneg hwet_nonneg).trans_le hwet_le) (by decide))
  obtain ⟨hwet_nonneg, hwet_le⟩ :=
    hwet.mem isNumber_zero (isNumber_zpow (by decide)) hwet_nonneg hwet_le
  -- the dry share is between zero and one
  have hdry := sub_rounds near_one.finite hmix
  rw [near_one.value_eq] at hdry
  have hdry := hdry (nearest_lt_overflow_of_unit (by linarith) (by linarith))
  obtain ⟨hdry_nonneg, hdry_le⟩ :=
    hdry.mem isNumber_zero isNumber_one (by linarith) (by linarith)
  have hsum : value (made * e.settings.mix) + value (1 - e.settings.mix) ≤ 2 ^ (8 : ℤ) :=
    (add_le_add hwet_le hdry_le).trans (by norm_num)
  have hblend := add_rounds hwet.finite hdry.finite (nearest_lt_overflow (k := 8)
    ((abs_of_nonneg (add_nonneg hwet_nonneg hdry_nonneg)).trans_le hsum) (by decide))
  exact ⟨⟨hmade, hmade_nonneg⟩, ⟨hwet, hwet_nonneg⟩, ⟨hdry, hdry_nonneg⟩, hblend,
    hblend.value_eq ▸ nearest_le (isNumber_zpow (by decide)) hsum⟩

/-- The factor grows with the gain. -/
theorem blend_mono {gain' : Float32} (hgain' : Finite gain') (hle' : value gain' ≤ value gain)
    (hnonneg' : 0 ≤ value gain') :
    Finite (e.blend gain') ∧ 0 ≤ value (e.blend gain') ∧
      value (e.blend gain') ≤ value (e.blend gain) := by
  obtain ⟨⟨hmade, -⟩, ⟨hwet, -⟩, -, hblend, -⟩ := blend_rounds hvalid hgain hnonneg hle
  obtain ⟨⟨hmade', -⟩, ⟨hwet', hwet_nonneg⟩, ⟨-, hdry_nonneg⟩, hblend', -⟩ :=
    blend_rounds hvalid hgain' hnonneg' (hle'.trans hle)
  have hmakeup := hvalid.makeup_bounds.2.1
  have hmix := hvalid.mix_bounds.2.1
  -- each operation keeps the order of its exact results, and so of its rounded ones
  have hmade_le : value (gain' * e.settings.makeup) ≤ value (gain * e.settings.makeup) := by
    rw [hmade.value_eq, hmade'.value_eq]
    exact nearest_mono (mul_le_mul_of_nonneg_right hle' (by linarith))
  have hwet_le : value (gain' * e.settings.makeup * e.settings.mix) ≤
      value (gain * e.settings.makeup * e.settings.mix) := by
    rw [hwet.value_eq, hwet'.value_eq]
    exact nearest_mono (mul_le_mul_of_nonneg_right hmade_le hmix)
  refine ⟨hblend'.finite, ?_, ?_⟩
  · rw [hblend'.value_eq]
    exact le_nearest isNumber_zero (add_nonneg hwet_nonneg hdry_nonneg)
  · rw [hblend.value_eq, hblend'.value_eq]
    exact nearest_mono (by linarith)

end Blend

/-- The factor of a gain of one is the ceiling. -/
theorem blend_one {e : Engine} (hvalid : e.settings.Valid) :
    e.blend 1 = e.settings.ceiling := by
  obtain ⟨hmakeup, hmakeup₁, -⟩ := hvalid.makeup_bounds
  obtain ⟨hfinite, hvalue⟩ := one_mul_exact hmakeup
  -- a product with one is not rounded
  have hsame : 1 * e.settings.makeup = e.settings.makeup :=
    eq_of_value_eq hfinite hmakeup hvalue (by linarith)
  rw [blend, hsame, Settings.ceiling]

/-- The ceiling is a number, and at most `2 ^ 8`. -/
theorem ceiling_mem {e : Engine} (hvalid : e.settings.Valid) :
    Finite e.settings.ceiling ∧ value e.settings.ceiling ≤ 2 ^ (8 : ℤ) := by
  have hone : value (1 : Float32) = 1 := near_one.value_eq
  obtain ⟨-, -, -, hblend, hle⟩ :=
    blend_rounds hvalid near_one.finite (hone ▸ zero_le_one) (hone ▸ one_le_two)
  rw [blend_one hvalid] at hblend hle
  exact ⟨hblend.finite, hle⟩

/-- A gain that is above one by rounding only gives a factor above the ceiling by little more. -/
theorem blend_le {e : Engine} (hvalid : e.settings.Valid) {gain : Float32} (hgain : Finite gain)
    (hnonneg : 0 ≤ value gain) (hle : value gain ≤ 1 + 2 ^ (-17 : ℤ)) :
    value (e.blend gain) ≤ value e.settings.ceiling * (1 + 8e-6) := by
  have hmakeup := hvalid.makeup_bounds.2.1
  obtain ⟨-, hmix, hmix'⟩ := hvalid.mix_bounds
  have hone : value (1 : Float32) = 1 := near_one.value_eq
  -- the blend of the gain, and beside it that of one
  obtain ⟨⟨hmade, hmade_nonneg⟩, ⟨hwet, hwet_nonneg⟩, ⟨hdry, hdry_nonneg⟩, hblend, -⟩ :=
    blend_rounds hvalid hgain hnonneg (hle.trans (by norm_num))
  obtain ⟨-, ⟨hwet', hwet_nonneg'⟩, -, hblend', -⟩ :=
    blend_rounds hvalid near_one.finite (hone ▸ zero_le_one) (hone ▸ one_le_two)
  rw [← blend_one hvalid]
  rw [(one_mul_exact hvalid.makeup_bounds.1).2] at hwet'
  -- with a make-up gain of at least one, the ceiling is not less than the mix
  have hproduct : 0 ≤ value e.settings.makeup * value e.settings.mix :=
    mul_nonneg (by linarith) hmix
  have hproduct_ge : value e.settings.mix ≤ value e.settings.makeup * value e.settings.mix :=
    le_mul_of_one_le_left hmix hmakeup
  have hgained := mul_le_mul_of_nonneg_right hle (by linarith : 0 ≤ value e.settings.makeup)
  -- each rounding by a share of what is rounded, and a little more next to zero
  have hmade_le := hmade.value_eq ▸ (nearest_bounds (mul_nonneg hnonneg (by linarith))).2
  have hwet_le := hwet.value_eq ▸ (nearest_bounds (mul_nonneg hmade_nonneg hmix)).2
  have hwet_ge := hwet'.value_eq ▸ (nearest_bounds hproduct).1
  have hdry_ge := hdry.value_eq ▸ (nearest_bounds (sub_nonneg.mpr hmix')).1
  have hblend_le := hblend.value_eq ▸ (nearest_bounds (add_nonneg hwet_nonneg hdry_nonneg)).2
  have hblend_ge := hblend'.value_eq ▸ (nearest_bounds (add_nonneg hwet_nonneg' hdry_nonneg)).1
  have hmixed := mul_le_mul_of_nonneg_right hmade_le hmix
  have hmixed' := mul_le_mul_of_nonneg_right hgained hmix
  -- the shares of the five roundings add up to less than the allowance
  norm_num at hwet_le hwet_ge hdry_ge hblend_le hblend_ge hmixed hmixed' ⊢
  linarith

/-! ### The stream -/

section Stream

variable {e : Engine} (h : e.Regular) (hb : e.knee.Balanced)
include h hb

/-- The gain and the factor of one detector sample. -/
theorem Regular.step_mem {d : List Sample} (hinput : Finite (e.input d)) :
    (Finite (e.step d).2.lastGain ∧ value (e.step d).2.lastGain ≤ 1 + 2 ^ (-17 : ℤ) ∧
        (e.knee.Bends → value (e.step d).2.lastGain ≤ 1)) ∧
      Finite (e.step d).1 ∧ 0 ≤ value (e.step d).1 ∧
      value (e.step d).1 ≤ value e.settings.ceiling * (1 + 8e-6) ∧
      (e.knee.Bends → value (e.step d).1 ≤ value e.settings.ceiling) := by
  obtain ⟨-, ⟨hlevel, -⟩, hfactor⟩ := h.step hinput
  -- the factor is the blend of the gain of the new level, which the meter keeps
  have hgain_eq : (e.step d).2.lastGain =
    e.knee.applied e.settings.detection (e.step d).2.level := rfl
  have hfactor_eq : (e.step d).1 =
    e.blend (e.knee.applied e.settings.detection (e.step d).2.level) := rfl
  obtain ⟨hgain, hpos, hle, hbends⟩ := h.knee_sound.applied_mem hb e.settings.detection hlevel
  rw [hgain_eq]
  rw [hfactor_eq] at hfactor ⊢
  generalize e.knee.applied e.settings.detection (e.step d).2.level = gain at *
  have hone : value (1 : Float32) = 1 := near_one.value_eq
  -- the factor is at least that of a gain of zero, and at most that of the greatest gain
  have hnonneg := (blend_mono h.valid hgain hpos.le (hle.trans (by norm_num)) hgain le_rfl
    hpos.le).2.1
  refine ⟨⟨hgain, hle, hbends⟩, hfactor, hnonneg, blend_le h.valid hgain hpos.le hle, fun hb => ?_⟩
  rw [← blend_one h.valid]
  exact (blend_mono h.valid near_one.finite (hone ▸ zero_le_one) (hone ▸ one_le_two) hgain
    (hone ▸ hbends hb) hpos.le).2.2

/-- The factors of a stream. -/
theorem Regular.factors_mem {ds : List (List Sample)} (hinputs : ∀ d ∈ ds, Finite (e.input d)) :
    ∀ factor ∈ e.factors ds, Finite factor ∧ 0 ≤ value factor ∧
      value factor ≤ value e.settings.ceiling * (1 + 8e-6) ∧
      (e.knee.Bends → value factor ≤ value e.settings.ceiling) := by
  induction ds generalizing e with
  | nil => exact nofun
  | cons d ds ih =>
    -- the next engine is regular too, and the induction goes on from it
    obtain ⟨hnext, -, -⟩ := h.step (hinputs d List.mem_cons_self)
    obtain ⟨-, hfactor⟩ := h.step_mem hb (hinputs d List.mem_cons_self)
    -- the settings and the knee stay
    exact List.forall_mem_cons.mpr
      ⟨hfactor, ih hnext hb fun d' hd' => hinputs d' (List.mem_cons_of_mem d hd')⟩

omit hb in
/-- A run over finite inputs keeps an engine regular. -/
theorem Regular.after {ds : List (List Sample)} (hinputs : ∀ d ∈ ds, Finite (e.input d)) :
    (e.after ds).Regular := by
  induction ds generalizing e with
  | nil => exact h
  | cons d ds ih =>
    -- one step at a time, each from a regular engine
    obtain ⟨hnext, -, -⟩ := h.step (hinputs d List.mem_cons_self)
    exact ih hnext fun d' hd' => hinputs d' (List.mem_cons_of_mem d hd')

/-- The gain after a stream, from a gain like that on. -/
theorem Regular.lastGain_mem {ds : List (List Sample)} (hinputs : ∀ d ∈ ds, Finite (e.input d))
    (hgain : Finite e.lastGain ∧ value e.lastGain ≤ 1 + 2 ^ (-17 : ℤ) ∧
      (e.knee.Bends → value e.lastGain ≤ 1)) :
    Finite (e.after ds).lastGain ∧ value (e.after ds).lastGain ≤ 1 + 2 ^ (-17 : ℤ) ∧
      (e.knee.Bends → value (e.after ds).lastGain ≤ 1) := by
  induction ds generalizing e with
  | nil => exact hgain
  | cons d ds ih =>
    -- the gain kept at the end is that of the last step
    obtain ⟨hnext, -, -⟩ := h.step (hinputs d List.mem_cons_self)
    obtain ⟨hlast, -⟩ := h.step_mem hb (hinputs d List.mem_cons_self)
    exact ih hnext hb (fun d' hd' => hinputs d' (List.mem_cons_of_mem d hd')) hlast

end Stream

end Engine

/-! ### Samples -/

namespace Sample

/-- Whether a sample is no louder than another multiplied by a factor, in single precision. -/
def NotLouder (factor : Float32) (x y : Sample) : Prop := y.value.abs ≤ x.value.abs * factor

instance (factor : Float32) (x y : Sample) : Decidable (NotLouder factor x y) :=
  inferInstanceAs (Decidable (_ ≤ _))

/-- Whether a sample is louder than another multiplied by a factor by rounding only: by a
hundred-thousandth, or by the least number. -/
def HardlyLouder (factor : Float32) (x y : Sample) : Prop :=
  y.value.isFinite = true ∧
    |Binary.value y.value| ≤
      |Binary.value x.value| * Binary.value factor * (1 + 1e-5) + 2 ^ (-149 : ℤ)

variable {s : Sample} {factor ceiling : Float32}

/-- The product of numbers is told by its value. -/
theorem value_scale (hs : Finite s.value) (hfactor : Finite factor) :
    -- the product of numbers is not a NaN, though it may overflow
    (s.scale factor).value = s.value * factor := by
  have hproduct := isNaN_mul hs hfactor
  rw [scale, hs.isNaN_eq_false, if_neg Bool.false_ne_true]
  dsimp only
  rw [hproduct, if_neg Bool.false_ne_true]
  exact Float32.ofBits_toBits _

/-- A factor up to the ceiling leaves a sample no louder than the ceiling does. -/
theorem notLouder_scale (hs : Finite s.value) (hfactor : Finite factor) (hceiling : Finite ceiling)
    (hnonneg : 0 ≤ Binary.value factor) (hle : Binary.value factor ≤ Binary.value ceiling) :
    NotLouder ceiling s (s.scale factor) := by
  rw [NotLouder, value_scale hs hfactor]
  exact abs_mul_le hs hfactor hceiling hnonneg hle

/-- A factor above the ceiling by rounding only leaves a sample louder by rounding only. -/
theorem hardlyLouder_scale (hs : Finite s.value) (hs_le : |Binary.value s.value| ≤ 2 ^ (63 : ℤ))
    (hfactor : Finite factor) (hceiling : Binary.value ceiling ≤ 2 ^ (8 : ℤ))
    (hnonneg : 0 ≤ Binary.value factor)
    (hle : Binary.value factor ≤ Binary.value ceiling * (1 + 8e-6)) :
    HardlyLouder ceiling s (s.scale factor) := by
  rw [HardlyLouder, value_scale hs hfactor]
  -- neither the factor nor the product overflows
  have hfactor_le : |Binary.value factor| ≤ 2 ^ (9 : ℤ) := by
    rw [abs_of_nonneg hnonneg]
    norm_num at hceiling hle ⊢
    linarith
  have habs := abs_mul_le_of_le (D := 2 ^ (72 : ℤ)) hs_le hfactor_le (by norm_num)
  have hrounds := mul_rounds hs hfactor (nearest_lt_overflow habs (by decide))
  refine ⟨hrounds.finite, ?_⟩
  -- the one rounding of the product adds a share and the least number to the exact product
  have hmagnitude := abs_nonneg (Binary.value s.value)
  have hproduct : |Binary.value s.value * Binary.value factor| =
      |Binary.value s.value| * Binary.value factor := by
    rw [abs_mul, abs_of_nonneg hnonneg]
  have hrounded := (abs_nearest_mono (f := .binary32) hproduct.le).trans
    (nearest_bounds (mul_nonneg hmagnitude hnonneg)).2
  have hscaled := mul_le_mul_of_nonneg_left hle hmagnitude
  have hproduct_nonneg := mul_nonneg hmagnitude hnonneg
  rw [hrounds.value_eq]
  norm_num at hrounded hscaled ⊢
  linarith

end Sample

namespace Engine

variable {e : Engine}

/-- What holds of each sample and its product with any of the factors holds along the span. -/
theorem forall₂_output {p : Sample → Sample → Prop} {main : List Sample} {mc : ℕ}
    {detector : List Sample} {dc n : ℕ}
    (h : ∀ factor ∈ e.factors (groups dc n detector), ∀ x ∈ main.take (n * mc),
      p x (x.scale factor)) :
    List.Forall₂ p (main.take (n * mc)) (e.output main mc detector dc n) := by
  -- one factor for each sample, and both lists end together
  have hlen : (e.factors (groups dc n detector)).length = (groups mc n main).length := by simp
  rw [output]
  rw [← flatten_groups] at h ⊢
  -- on the samples of the main stream, each beside its factor
  generalize e.factors (groups dc n detector) = factors at h hlen
  generalize groups mc n main = gs at h hlen
  induction gs generalizing factors with
  | nil =>
    obtain rfl := List.length_eq_zero_iff.mp hlen
    exact .nil
  | cons g gs ih =>
    cases factors with
    | nil => simp at hlen
    | cons factor factors =>
      obtain ⟨hfactor, hfactors⟩ := List.forall_mem_cons.mp h
      -- all channels of a sample are multiplied by the same factor
      rw [List.zipWith_cons_cons, List.flatten_cons, List.flatten_cons, scale]
      refine List.rel_append ?_ (ih _ (fun factor' hfactor' x hx => hfactors factor' hfactor' x
        (List.mem_append_right g hx)) (Nat.succ.inj hlen))
      exact List.forall₂_map_right_iff.mpr
        (List.forall₂_same.mpr fun x hx => hfactor x (List.mem_append_left _ hx))

/-- What a call makes of a span: no sample is louder than its input times the ceiling but for
rounding, and with a knee that bends not even by that. -/
structure Attenuates (e : Engine) (main out : List Sample) : Prop where
  notLouder : e.knee.Bends → List.Forall₂ (Sample.NotLouder e.settings.ceiling) main out
  hardlyLouder : (∀ x ∈ main, x.value.abs ≤ twoPow 63) →
    List.Forall₂ (Sample.HardlyLouder e.settings.ceiling) main out

/-- It does not depend on what runs. -/
theorem attenuates_after_iff (ds : List (List Sample)) (main out : List Sample) :
    (e.after ds).Attenuates main out ↔ e.Attenuates main out := by
  -- the statement mentions the knee and the settings only, and these stay
  rw [after_eq_withRunning]
  exact ⟨fun h => ⟨h.notLouder, h.hardlyLouder⟩, fun h => ⟨h.notLouder, h.hardlyLouder⟩⟩

/-- What a regular engine makes of a span of finite samples. -/
theorem Regular.attenuates_output (h : e.Regular) (hb : e.knee.Balanced) {main : List Sample}
    {mc : ℕ} {detector : List Sample} {dc n : ℕ}
    (hinputs : ∀ d ∈ groups dc n detector, Finite (e.input d))
    (hmain : ∀ x ∈ main.take (n * mc), Finite x.value) :
    e.Attenuates (main.take (n * mc)) (e.output main mc detector dc n) := by
  obtain ⟨hceiling, hceiling_le⟩ := ceiling_mem h.valid
  obtain ⟨hpow, hpow'⟩ := twoPow_spec (k := 63) (by decide) (by decide)
  -- with a knee that bends the factor is at most the ceiling
  constructor
  · intro hbends
    refine forall₂_output fun factor hfactor x hx => ?_
    obtain ⟨hfinite, hnonneg, -, hle⟩ := h.factors_mem hb hinputs factor hfactor
    exact Sample.notLouder_scale (hmain x hx) hfinite hceiling hnonneg (hle hbends)
  · intro hbound
    -- with any knee it is above the ceiling by rounding at most
    refine forall₂_output fun factor hfactor x hx => ?_
    obtain ⟨hfinite, hnonneg, hle, -⟩ := h.factors_mem hb hinputs factor hfactor
    have hx_le := (abs_le_iff (hmain x hx) hpow).mp (hbound x hx)
    exact Sample.hardlyLouder_scale (hmain x hx) (hpow' ▸ hx_le) hfinite hceiling_le hnonneg hle

/-! ### From a new engine on -/

/-- Samples up to full scale, in no more channels than a word can count. -/
def FullScale (d : List Sample) : Prop :=
  d.length < 2 ^ 64 ∧ ∀ x ∈ d, x.value.isFinite = true ∧ x.value.abs ≤ 1

instance (d : List Sample) : Decidable (FullScale d) := inferInstanceAs (Decidable (_ ∧ _))

/-- Samples up to full scale have a finite detector input. -/
theorem finite_input_of_fullScale {d : List Sample} (hne : d ≠ []) (h : FullScale d) :
    Finite (e.input d) := by
  -- a mean of magnitudes up to one is up to one, and so is its square
  refine finite_detectorInput_of_unit _ _ (mt List.map_eq_nil_iff.mp hne)
    (by rw [List.length_map]; exact h.1) fun x hx => ?_
  obtain ⟨sample, hsample, rfl⟩ := List.mem_map.mp hx
  obtain ⟨hfinite, hle⟩ := h.2 sample hsample
  exact ⟨hfinite, near_one.value_eq ▸ (abs_le_iff hfinite near_one.finite).mp hle⟩

/-- A new engine has the knee of its settings, and has reduced nothing. -/
private theorem start_of_ofSettings {s : Settings} {rate : Float32} {e : Engine}
    (h : ofSettings s rate = .ok e) : e.knee.Balanced ∧ e.lastGain = 1 := by
  -- the check has passed; the knee is made of the settings, and the meter starts at one
  obtain ⟨u, hs, he⟩ := Result.bind_eq_ok_iff.mp h
  obtain rfl := Except.ok.inj he
  exact ⟨Knee.balanced_make ((Settings.validate_eq_ok_iff s).mp hs), rfl⟩

/-- A call after a stream. -/
private theorem Regular.attenuates_after (h : e.Regular) (hb : e.knee.Balanced)
    {ds : List (List Sample)} (hinputs : ∀ d ∈ ds, Finite (e.input d)) {main : List Sample}
    {mc : ℕ} {detector : List Sample} {dc n : ℕ} (hdc : 0 < dc) (hlen : n * dc ≤ detector.length)
    (hdetector : ∀ d ∈ groups dc n detector, FullScale d)
    (hmain : ∀ x ∈ main.take (n * mc), Finite x.value) :
    e.Attenuates (main.take (n * mc)) ((e.after ds).output main mc detector dc n) := by
  have hknee : (e.after ds).knee = e.knee := by
    rw [after_eq_withRunning]
    rfl
  -- the stream leaves the engine regular, with the same knee
  refine (attenuates_after_iff ds _ _).mp ((h.after hinputs).attenuates_output (hknee ▸ hb)
    (fun d hd => ?_) hmain)
  refine finite_input_of_fullScale ?_ (hdetector d hd)
  rw [← List.length_pos_iff, length_of_mem_groups hlen hd]
  exact hdc

/-- From a new engine on, whatever full-scale signals it is called with, compression does not
amplify, but for rounding: each gain of the curve is above zero and at most `1 + 2 ^ -17`, the meter
reads at most a ten-thousandth of a decibel, and a sample is no louder than its input times the
ceiling, but for a hundred-thousandth. With a knee that bends nothing is to be allowed for rounding:
no gain is above one, the meter does not read above zero, and no sample is louder. -/
theorem attenuates_of_ofSettings {s : Settings} {rate : ℕ} {e : Engine} (hpos : 0 < rate)
    (hlt : rate < 2 ^ 32) (h : ofSettings s (.ofNat rate) = .ok e) :
    (∀ detection level, level.isFinite = true → e.knee.engages level →
      0 < e.knee.gain detection level ∧ e.knee.gain detection level ≤ .ofBits 0x3f800040 ∧
        (e.knee.Bends ∨ e.knee.Clear (Knee.levelLog detection level) →
          e.knee.gain detection level ≤ 1)) ∧
    ∀ ops, (∀ op ∈ ops, op.compresses = true) → (∀ d ∈ detected ops, FullScale d) →
      let e' := e.performAll ops
      (e'.gainReduction ≤ 1e-4 ∧ (e.knee.Bends → e'.gainReduction ≤ 0)) ∧
      (∀ main mc detector dc n, 0 < mc → 0 < dc → n * mc ≤ main.length →
        n * dc ≤ detector.length → (∀ d ∈ groups dc n detector, FullScale d) →
        (∀ x ∈ main.take (n * mc), x.value.isFinite = true) →
          ∃ out, (e'.process? main mc detector dc n).map Prod.fst =
              some (out ++ main.drop (n * mc)) ∧
            e.Attenuates (main.take (n * mc)) out) ∧
      ∀ signal channels n, 0 < channels → n * channels ≤ signal.length →
        (∀ d ∈ groups channels n signal, FullScale d) →
          ∃ out, (e'.processInPlace? signal channels n).map Prod.fst =
              some (out ++ signal.drop (n * channels)) ∧
            e.Attenuates (signal.take (n * channels)) out := by
  obtain ⟨hb, hstart⟩ := start_of_ofSettings h
  obtain ⟨hregular, rfl⟩ := regular_of_ofSettings hpos hlt h
  -- the curve itself, then the stream: the meter, beside a detector, and in place
  constructor
  · intro detection level hlevel hengages
    exact hregular.knee_sound.gain_bounds hb detection hlevel hengages
  intro ops hops hdetected
  rw [e.performAll_eq_after hops]
  have hinputs : ∀ d ∈ detected ops, Finite (e.input d) := fun d hd =>
    finite_input_of_fullScale (ne_nil_of_mem_detected hd) (hdetected d hd)
  refine ⟨?_, ?_, ?_⟩
  -- the meter shows the last gain in decibels, or nothing yet
  · obtain ⟨hgain, hgain_le, hbends⟩ := hregular.lastGain_mem hb hinputs
      (by rw [hstart, near_one.value_eq]; exact ⟨near_one.finite, by norm_num, fun _ => le_rfl⟩)
    obtain ⟨hmeter, hmeter'⟩ := decibelsOfGain_le hgain hgain_le
    exact ⟨hmeter, fun hbend => hmeter' (hbends hbend)⟩
  · intro main mc detector dc n hmc hdc hmain_len hlen hdetector hmain
    rw [process?_eq hmc hdc hmain_len hlen]
    exact ⟨_, rfl, hregular.attenuates_after hb hinputs hdc hlen hdetector hmain⟩
  · intro signal channels n hchannels hlen hsignal
    rw [processInPlace?, if_pos ⟨hchannels, hlen⟩, processInPlace_eq_process, process_eq]
    refine ⟨_, rfl, hregular.attenuates_after hb hinputs hchannels hlen hsignal fun x hx => ?_⟩
    -- the signal is its own detector, so its samples are up to full scale
    rw [← flatten_groups] at hx
    obtain ⟨d, hd, hx⟩ := List.mem_flatten.mp hx
    exact ((hsignal d hd).2 x hx).1

/-- The default settings, at full scale. -/
theorem attenuates_of_ofSettings_default :
    ∃ e, ofSettings {} (.ofNat 48000) = .ok e ∧ e.knee.gain .peak 1 ≤ 1 ∧
      (e.performAll [.processInPlace [⟨0x3f800000⟩] 1 1]).gainReduction ≤ 0 ∧
      ∃ out, ((e.performAll [.processInPlace [⟨0x3f800000⟩] 1 1]).processInPlace?
          [⟨0x3f000000⟩, ⟨0xbf800000⟩] 1 2).map Prod.fst = some (out ++ []) ∧
        List.Forall₂ (Sample.NotLouder (Settings.ceiling {}))
          [⟨0x3f000000⟩, ⟨0xbf800000⟩] out := by
  -- the call before is one of full scale
  have hops : ∀ op ∈ [Op.processInPlace [⟨0x3f800000⟩] 1 1], op.compresses = true := by
    intro op hop
    rw [List.mem_singleton.mp hop]
    rfl
  obtain ⟨e, he⟩ : ∃ e, ofSettings {} (.ofNat 48000) = .ok e := ⟨_, rfl⟩
  have hknee : e.knee = .make 0.125 (.finite 2) 2.82843 := by
    obtain rfl := Except.ok.inj he
    rfl
  -- the default knee bends, and full scale is above its start
  have hbends : e.knee.Bends := hknee ▸ Knee.bends_default
  have hengages : e.knee.engages 1 := hknee ▸ ⟨by decide +kernel, by decide +kernel⟩
  obtain ⟨hgain, hall⟩ := attenuates_of_ofSettings (by decide) (by decide) he
  obtain ⟨⟨-, hmeter⟩, -, hinPlace⟩ := hall _ hops (by decide +kernel)
  obtain ⟨out, hout, hattenuates⟩ :=
    hinPlace [⟨0x3f000000⟩, ⟨0xbf800000⟩] 1 2 (by decide) (by decide) (by decide +kernel)
  have hsettings := (regular_of_ofSettings (by decide) (by decide) he).2
  exact ⟨e, he, (hgain .peak 1 rfl hengages).2.2 (.inl hbends), hmeter hbends, out, hout,
    hsettings ▸ hattenuates.notLouder hbends⟩

/-- A ratio of one leaves the level as it is, but the difference of logarithms does not come back to
zero inside the knee: of a sample at 0.2 the gain is above one, the meter reads above zero, and the
sample comes out louder. -/
theorem exists_amplified :
    ∃ e, ofSettings { ratio := .finite 1, attack := 0.01, makeup := 1, detection := .peak }
        (.ofNat 48000) = .ok e ∧
      e.knee.engages (.ofBits 0x3e4ccccd) ∧ 1 < e.knee.gain .peak (.ofBits 0x3e4ccccd) ∧
      0 < (e.performAll [.processInPlace [⟨0x3e4ccccd⟩] 1 1]).gainReduction ∧
      (e.processInPlace? [⟨0x3e4ccccd⟩] 1 1).map Prod.fst = some [⟨0x3e4cccd0⟩] ∧
      ¬Sample.NotLouder e.settings.ceiling ⟨0x3e4ccccd⟩ ⟨0x3e4cccd0⟩ := by
  exact ⟨_, rfl, ⟨by decide +kernel, by decide +kernel⟩, by decide +kernel, by decide +kernel,
    by decide +kernel, by decide +kernel⟩

end Engine

end DynamicRange
