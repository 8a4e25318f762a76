import DynamicRange.Proofs.Engine.Level
import DynamicRange.Proofs.Scalar.Special

/-!
# The dry signal

With a mix of zero nothing of the compressed signal is left in the output. The engine has no branch
for it: the gain is multiplied by zero and one is added. So the output is the input, bit for bit,
as long as the gain is a number, which it is for every detector reading but an infinite one. Of an
infinite reading a finite ratio makes a NaN, and the samples beside it are lost.

## Key results

- `Knee.Sound.applied_bound_of_ne`: the gain for a reading that is not infinite
- `Knee.Sound.applied_infinity`, `Knee.Sound.applied_infinity_of_limit`: and for one that is
- `Coherent.factors_eq_one_iff`: the factors of a stream
- `dry_eq_iff`: calls that leave the signal as it is
-/

namespace DynamicRange

open Binary Scalar

/-! ### Gains -/

namespace Knee

variable {k : Knee Float32} {level : Float32}

/-- The logarithm of an infinite level is infinite. -/
private theorem ln_infinity : ln infinity = infinity := rfl

/-- In both modes the level that the curve is read at is infinite. -/
private theorem levelLog_infinity (detection : Detection) :
    levelLog detection infinity = infinity := by
  cases detection with
  | peak => exact ln_infinity
  | rms =>
    have hhalf : infinity * 0.5 = infinity := rfl
    rw [levelLog, show Elementary.ln infinity = infinity from ln_infinity, hhalf]

/-- An infinite reading is above the knee, whatever the knee is. -/
private theorem Sound.applied_infinity_eq (h : k.Sound) (detection : Detection) :
    k.applied detection infinity = exp (k.ratio.line k.threshold infinity - infinity) := by
  -- an infinite level is above zero and above the start of the knee
  have hengages : k.engages infinity :=
    ⟨lt_infinity near_zero.finite, lt_infinity h.linearStart_finite⟩
  -- and not below the end of the knee, so the straight line applies
  have houtput : k.output infinity = k.ratio.line k.threshold infinity :=
    if_neg fun hinside => not_infinity_lt h.stop_finite hinside.2
  rw [applied, if_pos hengages, gain, levelLog_infinity, houtput]
  rfl

/-- The difference of two infinities is none. -/
theorem Sound.applied_infinity (h : k.Sound) (detection : Detection) (hratio : k.ratio ≠ .limit) :
    ¬Finite (k.applied detection infinity) := by
  rw [h.applied_infinity_eq detection]
  cases hr : k.ratio with
  -- a limiter is excluded
  | limit => exact absurd hr hratio
  | finite r =>
    obtain ⟨hfinite, hone⟩ := h.ratio_allowed r hr
    -- the line is infinite too, and the exponential of the difference is not a number
    have hexp : exp nan = nan := rfl
    rw [Ratio.line, infinity_sub h.threshold_finite,
      infinity_div hfinite (zero_lt_one.trans_le hone), infinity_add h.threshold_finite,
      infinity_sub_infinity, hexp]
    exact not_finite_nan

/-- A limiter turns an infinite level all the way down. -/
theorem Sound.applied_infinity_of_limit (h : k.Sound) (detection : Detection)
    (hratio : k.ratio = .limit) : k.applied detection infinity = 0 := by
  rw [h.applied_infinity_eq detection, hratio, Ratio.line, sub_infinity h.threshold_finite]
  rfl

/-- For any other reading, also a NaN. -/
theorem Sound.applied_bound_of_ne (h : k.Sound) (detection : Detection) (hne : level ≠ infinity) :
    Finite (k.applied detection level) ∧ |value (k.applied detection level)| ≤ 2 ^ (120 : ℤ) := by
  -- a finite level has a bounded gain
  by_cases hlevel : Finite level
  · exact h.applied_bound detection hlevel
  · -- the curve is not applied
    have hnot : ¬k.engages level := fun hengages => not_pos_of_not_finite hlevel hne hengages.1
    rw [applied, if_neg hnot]
    exact ⟨near_one.finite, (near_one.abs_value_le (abs_one (α := ℚ)).le).trans (by norm_num)⟩

end Knee

/-! ### Samples -/

namespace Sample

variable {s : Sample} {factor : Float32}

/-- A factor of one leaves a finite sample as it was, bit for bit. -/
theorem scale_one (hs : Finite s.value) : s.scale 1 = s := by
  have hnan : s.value.isNaN = false := hs.isNaN_eq_false
  have hbits : s.value.toBits = s.bits := toBits_ofBits hnan
  rw [scale, if_neg (by rw [hnan]; exact Bool.false_ne_true), mul_one_eq hs]
  dsimp only
  rw [if_neg (by rw [hnan]; exact Bool.false_ne_true), ofValue, hbits]

/-- A factor that is not a number leaves no number. -/
theorem scale_ne (hs : Finite s.value) (hfactor : ¬Finite factor) : s.scale factor ≠ s := by
  have hnan : s.value.isNaN = false := hs.isNaN_eq_false
  intro heq
  -- the product would be the sample itself, which is a number
  rw [scale, hnan, if_neg Bool.false_ne_true] at heq
  dsimp only at heq
  split at heq
  -- a product that is a NaN is stored as the one indefinite NaN
  · have hindefinite : indefinite.value = nan := rfl
    rw [← heq, hindefinite] at hs
    exact not_finite_nan hs
  -- a product is finite only if both its factors are
  · have hvalue : s.value * factor = s.value := by
      rw [← Float32.ofBits_toBits (s.value * factor)]
      exact congrArg Sample.value heq
    rw [← hvalue] at hs
    exact hfactor hs.of_mul.2

end Sample

namespace Engine

variable {e : Engine}

/-- A sample of one channel or more tells whether it has been multiplied. -/
theorem scale_eq_iff {factor : Float32} {g : List Sample} (hne : g ≠ [])
    (hg : ∀ s ∈ g, Finite s.value) (hfactor : factor = 1 ∨ ¬Finite factor) :
    scale factor g = g ↔ factor = 1 := by
  constructor
  -- the first channel tells already
  · intro heq
    obtain ⟨s, g, rfl⟩ := List.exists_cons_of_ne_nil hne
    refine hfactor.resolve_right fun hfactor => ?_
    exact Sample.scale_ne (hg s List.mem_cons_self) hfactor (List.cons.inj heq).1
  · rintro rfl
    -- every channel is kept
    exact (List.map_congr_left fun s hs => Sample.scale_one (hg s hs)).trans (List.map_id g)

/-- Samples beside their factors come out as they were just when all the factors are one. -/
theorem flatten_zipWith_scale_eq_iff {factors : List Float32} {gs : List (List Sample)}
    (hlen : factors.length = gs.length) (hne : ∀ g ∈ gs, g ≠ [])
    (hgs : ∀ g ∈ gs, ∀ s ∈ g, Finite s.value)
    (hfactors : ∀ factor ∈ factors, factor = 1 ∨ ¬Finite factor) :
    (List.zipWith scale factors gs).flatten = gs.flatten ↔ ∀ factor ∈ factors, factor = 1 := by
  induction gs generalizing factors with
  -- on the samples, each with its own factor
  | nil =>
    obtain rfl := List.length_eq_zero_iff.mp hlen
    exact ⟨fun _ => nofun, fun _ => rfl⟩
  | cons g gs ih =>
    cases factors with
    | nil => simp at hlen
    | cons factor factors =>
      obtain ⟨hg, hgs⟩ := List.forall_mem_cons.mp hgs
      obtain ⟨hfactor, hfactors⟩ := List.forall_mem_cons.mp hfactors
      obtain ⟨hne, hnes⟩ := List.forall_mem_cons.mp hne
      -- the first sample and the rest are compared apart, because multiplying keeps their lengths
      have hrest := ih (Nat.succ.inj hlen) hnes hgs hfactors
      have hsame : (scale factor g).length = g.length := List.length_map _
      rw [List.zipWith_cons_cons, List.flatten_cons, List.flatten_cons, List.forall_mem_cons,
        ← scale_eq_iff hne hg hfactor, ← hrest]
      exact ⟨fun heq => List.append_inj heq hsame, fun ⟨heq, heqs⟩ => by rw [heq, heqs]⟩

/-! ### Factors -/

/-- With a mix of zero the factor of a gain that is a number is one. -/
theorem blend_eq_one (hvalid : e.settings.Valid) (hmix : value e.settings.mix = 0) {gain : Float32}
    (hgain : Finite gain) (hbound : |value gain| ≤ 2 ^ (120 : ℤ)) : e.blend gain = 1 := by
  obtain ⟨hmakeup, hmakeup₁, hmakeup₂⟩ := hvalid.makeup_bounds
  have hmakeup' : |value e.settings.makeup| ≤ 2 ^ (6 : ℤ) :=
    abs_le.mpr ⟨by norm_num; linarith, by norm_num; linarith⟩
  -- the gain with the make-up gain does not overflow
  obtain ⟨hmade, -⟩ := mul_bound (k := 126) hgain hmakeup
    (abs_mul_le_of_le hbound hmakeup' (by norm_num)) (by decide)
  have hmix' := hvalid.mix_bounds.1
  -- from here on nothing is rounded
  have hwet_eq : value (gain * e.settings.makeup) * value e.settings.mix = 0 := by
    rw [hmix, mul_zero]
  have hdry_eq : value (1 : Float32) - value e.settings.mix = 1 := by
    rw [hmix, near_one.value_eq, sub_zero]
  have hwet := mul_rounds hmade hmix'
    (hwet_eq ▸ nearest_lt_overflow_of_unit le_rfl zero_le_one)
  have hdry := sub_rounds near_one.finite hmix'
    (hdry_eq ▸ nearest_lt_overflow_of_unit zero_le_one le_rfl)
  rw [hwet_eq] at hwet
  rw [hdry_eq] at hdry
  -- nothing of the wet share and all of the dry one
  have hsum_eq : value (gain * e.settings.makeup * e.settings.mix) +
      value (1 - e.settings.mix) = 1 := by
    rw [hwet.exact isNumber_zero, hdry.exact isNumber_one, zero_add]
  have hsum := add_rounds hwet.finite hdry.finite
    (hsum_eq ▸ nearest_lt_overflow_of_unit zero_le_one le_rfl)
  rw [hsum_eq] at hsum
  have hvalue : value (e.blend gain) = 1 := hsum.exact isNumber_one
  exact eq_of_value_eq hsum.finite near_one.finite (hvalue.trans near_one.value_eq.symm)
    (hvalue.trans_ne one_ne_zero)

/-- A gain that is not a number gives a factor that is none. -/
theorem not_finite_blend {gain : Float32} (hgain : ¬Finite gain) : ¬Finite (e.blend gain) :=
  fun hfactor => hgain hfactor.of_add.1.of_mul.1.of_mul.1

/-- Whether no reading of a stream is infinite, unless for a limiter. -/
def Bypasses (e : Engine) (ds : List (List Sample)) : Prop :=
  ∀ level ∈ e.levels ds, level = infinity → e.settings.ratio = .limit

/-- Finite detector inputs leave no infinite reading. -/
theorem Regular.bypasses (h : e.Regular) {ds : List (List Sample)}
    (hinputs : ∀ d ∈ ds, Finite (e.input d)) : e.Bypasses ds := by
  rintro level hlevel rfl
  obtain ⟨hfinite, -⟩ := (h.levels hinputs).1 infinity hlevel
  exact absurd hfinite Bool.false_ne_true

section Dry

variable (h : e.Coherent) (hmix : value e.settings.mix = 0)
include h hmix

/-- One detector sample. -/
private theorem Coherent.factor_cases (d : List Sample) :
    ((e.step d).1 = 1 ∧ ((e.step d).2.level = infinity → e.settings.ratio = .limit)) ∨
      ¬Finite (e.step d).1 ∧
        ¬((e.step d).2.level = infinity → e.settings.ratio = .limit) := by
  -- the knee is that of valid settings, with their ratio
  have hvalid := (Settings.validate_eq_ok_iff _).mp h.settings_valid
  have hknee : e.knee.Sound := h.knee_eq ▸ Knee.sound_make hvalid
  have hratio : e.knee.ratio = e.settings.ratio := by rw [h.knee_eq]; rfl
  have hfactor : (e.step d).1 =
    e.blend (e.knee.applied e.settings.detection (e.step d).2.level) := rfl
  rw [hfactor]
  -- what counts is whether the level is infinite, and if so whether the ratio is a limit
  by_cases hlevel : (e.step d).2.level = infinity
  · rw [hlevel]
    by_cases hlimit : e.settings.ratio = .limit
    · left
      rw [hknee.applied_infinity_of_limit _ (hratio.trans hlimit)]
      have hbound : |value (0 : Float32)| ≤ 2 ^ (120 : ℤ) := by
        rw [near_zero.value_eq, abs_zero]
        positivity
      exact ⟨blend_eq_one hvalid hmix near_zero.finite hbound, fun _ => hlimit⟩
    · right
      exact ⟨not_finite_blend (hknee.applied_infinity _ (hratio ▸ hlimit)),
        fun himp => hlimit (himp rfl)⟩
  · left
    obtain ⟨hgain, hbound⟩ := hknee.applied_bound_of_ne e.settings.detection hlevel
    exact ⟨blend_eq_one hvalid hmix hgain hbound, fun heq => absurd heq hlevel⟩

/-- Over a stream each factor is one or none, and all are one just when the stream bypasses. -/
theorem Coherent.factors_eq_one_iff (ds : List (List Sample)) :
    (∀ factor ∈ e.factors ds, factor = 1 ∨ ¬Finite factor) ∧
      ((∀ factor ∈ e.factors ds, factor = 1) ↔ e.Bypasses ds) := by
  induction ds generalizing e with
  | nil => exact ⟨nofun, fun _ => nofun, fun _ => nofun⟩
  | cons d ds ih =>
    -- the rest of the run starts from a coherent engine with the same settings
    obtain ⟨hall, hiff⟩ := ih (e := (e.step d).2) (h.after [d]) hmix
    rw [Bypasses, factors, levels, List.forall_mem_cons, List.forall_mem_cons, List.forall_mem_cons]
    rcases h.factor_cases hmix d with ⟨hone, hlevel⟩ | ⟨hnot, hlevel⟩
    · exact ⟨⟨.inl hone, hall⟩, and_congr (iff_of_true hone hlevel) hiff⟩
    · have hne : (e.step d).1 ≠ 1 := fun hone => hnot (hone ▸ near_one.finite)
      exact ⟨⟨.inr hnot, hall⟩, and_congr (iff_of_false hne hlevel) hiff⟩

/-- With a mix of zero a span of finite samples comes out as it was just when the detector bypasses.
-/
theorem Coherent.process_dry_eq_iff {main : List Sample} {mc : ℕ} {detector : List Sample}
    {dc n : ℕ} (hmc : 0 < mc) (hlen : n * mc ≤ main.length)
    (hmain : ∀ x ∈ main, Finite x.value) :
    (e.process main mc detector dc n).1 = main ↔ e.Bypasses (groups dc n detector) := by
  -- each factor is one or not a number, so that the output tells which
  obtain ⟨hall, hiff⟩ := h.factors_eq_one_iff hmix (groups dc n detector)
  have hgroups : ∀ g ∈ groups mc n main, ∀ x ∈ g, Finite x.value := by
    intro g hg x hx
    have hmem : x ∈ main.take (n * mc) := by
      rw [← flatten_groups]
      exact List.mem_flatten.mpr ⟨g, hg, hx⟩
    exact hmain x (List.mem_of_mem_take hmem)
  have hne : ∀ g ∈ groups mc n main, g ≠ [] := by
    intro g hg
    rw [← List.length_pos_iff, length_of_mem_groups hlen hg]
    exact hmc
  have hscaled := flatten_zipWith_scale_eq_iff (by simp) hne hgroups hall
  rw [flatten_groups, hiff] at hscaled
  rw [← hscaled, process_eq, output]
  -- what follows the span is kept anyway
  exact ⟨fun heq => List.append_cancel_right (heq.trans (List.take_append_drop (n * mc) main).symm),
    fun heq => by rw [heq, List.take_append_drop]⟩

end Dry

/-- With a mix of zero the main signal comes out as it was, bit for bit, just when no reading is
infinite or the ratio is a limit. That holds in every state that an engine can be in. -/
theorem dry_eq_iff {s : Settings} {rate : Float32} {e : Engine} (h : ofSettings s rate = .ok e)
    {ops : List Op} (hmix : ((e.performAll ops).settings.mix == 0) = true) :
    (∀ main mc detector dc n, (∀ x ∈ main, x.value.isFinite = true) → 0 < mc → 0 < dc →
      n * mc ≤ main.length → n * dc ≤ detector.length →
        (((e.performAll ops).process? main mc detector dc n).map Prod.fst = some main ↔
          (e.performAll ops).Bypasses (groups dc n detector))) ∧
      ∀ signal channels n, (∀ x ∈ signal, x.value.isFinite = true) → 0 < channels →
        n * channels ≤ signal.length →
          (((e.performAll ops).processInPlace? signal channels n).map Prod.fst = some signal ↔
            (e.performAll ops).Bypasses (groups channels n signal)) := by
  have hcoherent := (coherent_of_ofSettings h).1.performAll ops
  have hzero : value (e.performAll ops).settings.mix = 0 := by
    -- a mix that compares equal to zero is a zero of either sign
    rcases (Float32.beq_iff_ne_nan_and_eq.mp hmix).2.2 with heq | ⟨heq, -⟩ | ⟨heq, -⟩ <;>
      rw [heq] <;> rfl
  constructor
  · intro main mc detector dc n hmain hmc hdc hlen hdetector
    rw [process?, if_pos ⟨hmc, hdc, hlen, hdetector⟩, Option.map_some, Option.some_inj]
    exact hcoherent.process_dry_eq_iff hzero hmc hlen hmain
  · intro signal channels n hsignal hchannels hlen
    rw [processInPlace?, if_pos ⟨hchannels, hlen⟩, Option.map_some, Option.some_inj,
      processInPlace_eq_process]
    exact hcoherent.process_dry_eq_iff hzero hchannels hlen hsignal

/-- Zeros of either sign, the least number and full scale. -/
theorem dry_eq_iff_full_scale :
    ∃ e, ofSettings { mix := 0 } (.ofNat 48000) = .ok e ∧
      (e.processInPlace? [⟨0⟩, ⟨0x80000000⟩, ⟨1⟩, ⟨0x3f800000⟩] 1 4).map Prod.fst =
        some [⟨0⟩, ⟨0x80000000⟩, ⟨1⟩, ⟨0x3f800000⟩] := by
  obtain ⟨e, he⟩ : ∃ e, ofSettings { mix := 0 } (.ofNat 48000) = .ok e := ⟨_, rfl⟩
  obtain ⟨hregular, hsettings⟩ := regular_of_ofSettings (by decide) (by decide) he
  have hmix : ((e.performAll []).settings.mix == 0) = true := by
    rw [performAll, List.foldl_nil, hsettings]
    decide +kernel
  -- the samples are moderate, and so have finite inputs
  have hmoderate : ∀ d ∈ groups 1 4 [⟨0⟩, ⟨0x80000000⟩, ⟨1⟩, ⟨0x3f800000⟩],
      d ≠ [] ∧ Moderate e.settings d := by
    rw [hsettings]
    decide +kernel
  have hbypasses := hregular.bypasses fun d hd =>
    finite_input_of_moderate (hmoderate d hd).1 (hmoderate d hd).2
  exact ⟨e, he, ((dry_eq_iff he hmix).2 _ 1 4 (by decide +kernel) (by decide) (by decide)).mpr
    hbypasses⟩

/-- A sample of `1e30` makes the reading infinite, and a NaN of whatever is multiplied. -/
theorem not_forall_dry :
    ¬∀ (s : Settings) (rate : Float32) (e : Engine) (ops : List Op), ofSettings s rate = .ok e →
      ((e.performAll ops).settings.mix == 0) = true →
      (∀ main mc detector dc n, (∀ x ∈ main, x.value.isFinite = true) → 0 < mc → 0 < dc →
        n * mc ≤ main.length → n * dc ≤ detector.length →
          ((e.performAll ops).process? main mc detector dc n).map Prod.fst = some main) ∧
        ∀ signal channels n, (∀ x ∈ signal, x.value.isFinite = true) → 0 < channels →
          n * channels ≤ signal.length →
            ((e.performAll ops).processInPlace? signal channels n).map Prod.fst = some signal := by
  intro hall
  obtain ⟨e, he⟩ : ∃ e, ofSettings { mix := 0 } (.ofNat 48000) = .ok e := ⟨_, rfl⟩
  have hmix : ((e.performAll []).settings.mix == 0) = true := by
    obtain rfl := Except.ok.inj he
    decide +kernel
  -- the claim for one sample of `1e30` in place
  have hkept := (hall { mix := 0 } (.ofNat 48000) e [] he hmix).2 [⟨0x7149f2ca⟩] 1 1
    (by decide +kernel) (by decide) (by decide)
  -- what comes out is a NaN
  have hlost : ((e.performAll []).processInPlace? [⟨0x7149f2ca⟩] 1 1).map Prod.fst =
      some [Sample.indefinite] := by
    obtain rfl := Except.ok.inj he
    decide +kernel
  exact absurd (hkept.symm.trans hlost) (by decide)

end Engine

end DynamicRange
