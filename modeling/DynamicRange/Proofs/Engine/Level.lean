import DynamicRange.Proofs.Engine.Coherence
import DynamicRange.Proofs.Envelope
import DynamicRange.Proofs.Knee.Single
import DynamicRange.Proofs.Link

/-!
# When the level is a number

The level is kept from sample to sample, so a reading that is not a number stays. Over a stream the
readings are numbers just while the detector inputs are, and then so are the factors. A sample that
is a number need not have such an input: the sum of the channels and the square of the magnitude
can overflow.

## Key results

- `performAll_eq_after`: calls of the engine by their detector samples
- `Regular.step`: one detector sample
- `finite_levels_iff`: the readings and the factors of a stream
-/

namespace DynamicRange.Engine

open Binary

/-- The level after each of a list of detector samples. -/
def levels (e : Engine) : List (List Sample) → List Float32
  | [] => []
  | d :: ds => (e.step d).2.level :: (e.step d).2.levels ds

/-- The detector input of a sample. -/
def input (e : Engine) (d : List Sample) : Float32 :=
  detectorInput e.settings.link e.settings.detection (d.map Sample.value)

/-! ### Calls -/

/-- Whether an operation compresses a buffer. -/
def Op.compresses : Op → Bool
  | process .. | processInPlace .. => true
  | setSettings _ | setParameter .. | setRate _ | reset => false

/-- The detector samples that an operation takes in. A call with buffers that are too short, or
without channels, takes in none. -/
def Op.detected : Op → List (List Sample)
  | process main mc detector dc n =>
    if 0 < mc ∧ 0 < dc ∧ n * mc ≤ main.length ∧ n * dc ≤ detector.length then
      groups dc n detector
    else []
  | processInPlace signal channels n =>
    if 0 < channels ∧ n * channels ≤ signal.length then groups channels n signal else []
  | setSettings _ | setParameter .. | setRate _ | reset => []

/-- A call that compresses takes the engine through its detector samples. -/
theorem perform_eq_after (e : Engine) {op : Op} (hop : op.compresses = true) :
    e.perform op = e.after op.detected := by
  cases op with
  | process main mc detector dc n =>
    -- a call that is refused takes in no sample and changes nothing
    simp only [perform, process?, Op.detected]
    split
    · rw [process_eq]
      rfl
    · rfl
  | processInPlace signal channels n =>
    simp only [perform, processInPlace?, Op.detected]
    split
    · rw [processInPlace_eq_process, process_eq]
      rfl
    · rfl
  -- the others do not compress
  | setSettings | setParameter | setRate | reset => exact absurd hop Bool.false_ne_true

/-- The detector samples of a list of operations. -/
def detected (ops : List Op) : List (List Sample) := ops.flatMap Op.detected

/-- A detector sample has a channel. -/
theorem ne_nil_of_mem_detected {ops : List Op} {d : List Sample} (hd : d ∈ detected ops) :
    d ≠ [] := by
  obtain ⟨op, -, hd⟩ := List.mem_flatMap.mp hd
  rw [← List.length_pos_iff]
  cases op with
  -- a call in range has at least one channel, and cuts its samples at that stride
  | process main mc detector dc n =>
    rw [Op.detected] at hd
    split at hd
    next h => rw [length_of_mem_groups h.2.2.2 hd]; exact h.2.1
    next => exact absurd hd List.not_mem_nil
  | processInPlace signal channels n =>
    rw [Op.detected] at hd
    split at hd
    next h => rw [length_of_mem_groups h.2 hd]; exact h.1
    next => exact absurd hd List.not_mem_nil
  | setSettings | setParameter | setRate | reset => exact absurd hd List.not_mem_nil

/-- Calls take in their detector samples one after the other. -/
theorem performAll_eq_after (e : Engine) {ops : List Op} (hops : ∀ op ∈ ops, op.compresses = true) :
    e.performAll ops = e.after (detected ops) := by
  induction ops generalizing e with
  | nil => rfl
  -- the samples of the first call come first
  | cons op ops ih =>
    have hop := e.perform_eq_after (hops op List.mem_cons_self)
    rw [detected, List.flatMap_cons, after_append, ← hop]
    exact ih _ fun op' hop' => hops op' (List.mem_cons_of_mem op hop')

/-! ### Factors -/

/-- A gain that leaves room for the make-up gain gives a factor that is a number. -/
theorem finite_blend {e : Engine} (hvalid : e.settings.Valid) {gain : Float32} (hgain : Finite gain)
    (hbound : |value gain| ≤ 2 ^ (120 : ℤ)) : Finite (e.blend gain) := by
  obtain ⟨hmakeup, hmakeup₁, hmakeup₂⟩ := hvalid.makeup_bounds
  obtain ⟨hmix, hmix₁, hmix₂⟩ := hvalid.mix_bounds
  -- the bounds of the settings in powers of two
  have hmakeup' : |value e.settings.makeup| ≤ 2 ^ (6 : ℤ) :=
    abs_le.mpr ⟨by norm_num; linarith, by norm_num; linarith⟩
  have hmix' : |value e.settings.mix| ≤ 1 := abs_le.mpr ⟨by linarith, hmix₂⟩
  -- the gain with the make-up gain, then the mix of it, then the dry share
  obtain ⟨hmade, hmade'⟩ := mul_bound (k := 126) hgain hmakeup
    (abs_mul_le_of_le hbound hmakeup' (by norm_num)) (by decide)
  obtain ⟨hwet, hwet'⟩ := mul_bound (k := 126) hmade hmix
    (abs_mul_le_of_le hmade' hmix' (by norm_num)) (by decide)
  have hrest : |1 - value e.settings.mix| ≤ 1 := abs_le.mpr ⟨by linarith, by linarith⟩
  have hdry := near_one.sub (near_value hmix) hrest 1 (by norm_num) (by norm_num)
  have hdry' := hdry.abs_value_le hrest
  -- the sum of both shares is still below the overflow
  have hsum := abs_add_le_of_le (D := 2 ^ (127 : ℤ)) hwet' hdry' (by norm_num)
  exact (add_near hwet hdry.finite hsum (by decide)).1

/-! ### The stream -/

/-- An engine that keeps valid settings, and nothing beside them that is not a number. -/
structure Regular (e : Engine) : Prop where
  valid : e.settings.Valid
  knee_sound : e.knee.Sound
  envelope_bounded : e.envelope.Bounded

/-- A new engine is regular, with the settings it was made of. -/
theorem regular_of_ofSettings {s : Settings} {rate : ℕ} {e : Engine} (hpos : 0 < rate)
    (hlt : rate < 2 ^ 32) (h : ofSettings s (.ofNat rate) = .ok e) :
    e.Regular ∧ e.settings = s := by
  obtain ⟨u, hs, he⟩ := Result.bind_eq_ok_iff.mp h
  obtain rfl := Except.ok.inj he
  -- the knee is made of valid settings, and the coefficients of times within their bounds
  have hvalid := (Settings.validate_eq_ok_iff s).mp hs
  obtain ⟨hattack, hattack₁, hattack₂⟩ := hvalid.attack_bounds
  obtain ⟨hrelease, hrelease₁, hrelease₂⟩ := hvalid.release_bounds
  exact ⟨⟨hvalid, Knee.sound_make hvalid, share_coefficient hattack hattack₁ hattack₂ hpos hlt,
    share_coefficient hrelease hrelease₁ hrelease₂ hpos hlt, inRange_zero⟩, rfl⟩

variable {e : Engine}

/-- A finite input keeps the level a number, and the factor is one too. -/
theorem Regular.step (h : e.Regular) {d : List Sample} (hinput : Finite (e.input d)) :
    (e.step d).2.Regular ∧ (Finite (e.step d).2.level ∧ 0 ≤ value (e.step d).2.level) ∧
      Finite (e.step d).1 := by
  -- the follower keeps its level a number, and the curve a bounded gain of it
  have henvelope := h.envelope_bounded.process hinput
  have hlevel := henvelope.level_inRange.narrow
  obtain ⟨hgain, hbound⟩ := h.knee_sound.applied_bound e.settings.detection hlevel.1
  exact ⟨⟨h.valid, h.knee_sound, henvelope⟩, hlevel, finite_blend h.valid hgain hbound⟩

/-- Over a stream of finite inputs. -/
theorem Regular.levels (h : e.Regular) {ds : List (List Sample)}
    (hinputs : ∀ d ∈ ds, Finite (e.input d)) :
    (∀ level ∈ e.levels ds, Finite level ∧ 0 ≤ value level) ∧
      ∀ factor ∈ e.factors ds, Finite factor := by
  induction ds generalizing e with
  | nil => exact ⟨nofun, nofun⟩
  | cons d ds ih =>
    -- the first step leaves a regular engine, from which the induction goes on
    obtain ⟨hnext, hlevel, hfactor⟩ := h.step (hinputs d List.mem_cons_self)
    obtain ⟨hlevels, hfactors⟩ := ih hnext fun d' hd' => hinputs d' (List.mem_cons_of_mem d hd')
    exact ⟨List.forall_mem_cons.mpr ⟨hlevel, hlevels⟩, List.forall_mem_cons.mpr ⟨hfactor, hfactors⟩⟩

/-- Only finite inputs leave finite readings. -/
theorem finite_input_of_levels {ds : List (List Sample)} (h : ∀ level ∈ e.levels ds, Finite level) :
    ∀ d ∈ ds, Finite (e.input d) := by
  induction ds generalizing e with
  | nil => exact nofun
  | cons d ds ih =>
    obtain ⟨hlevel, hlevels⟩ := List.forall_mem_cons.mp h
    -- a reading that is finite comes from an input that is
    have hrest := ih (e := (e.step d).2) hlevels
    exact List.forall_mem_cons.mpr ⟨Envelope.finite_of_reading_process hlevel, hrest⟩

/-! ### Inputs that do not overflow -/

/-- Samples that are numbers, of which the largest magnitude alone is followed, or which are up to
`2 ^ 63` and not more than `2 ^ 24` side by side. -/
def Moderate (s : Settings) (d : List Sample) : Prop :=
  (∀ x ∈ d, x.value.isFinite = true) ∧
    ((s.link = .maximum ∧ s.detection = .peak) ∨
      (d.length ≤ 2 ^ 24 ∧ ∀ x ∈ d, x.value.abs ≤ Scalar.twoPow 63))

instance (s : Settings) (d : List Sample) : Decidable (Moderate s d) :=
  inferInstanceAs (Decidable (_ ∧ _))

/-- Moderate samples have a finite detector input. -/
theorem finite_input_of_moderate {d : List Sample} (hne : d ≠ []) (h : Moderate e.settings d) :
    Finite (e.input d) := by
  obtain ⟨hfinite, hmode | ⟨hlen, hle⟩⟩ := h
  -- the largest magnitude is one of the samples itself
  · rw [input, hmode.1, hmode.2]
    refine finite_detectorInput_of_maximum_peak fun x hx => ?_
    obtain ⟨sample, hsample, rfl⟩ := List.mem_map.mp hx
    exact hfinite sample hsample
  -- a mean of so few magnitudes does not overflow, and neither does its square
  · refine finite_detectorInput_of_le _ _ (mt List.map_eq_nil_iff.mp hne)
      (by rwa [List.length_map]) fun x hx => ?_
    obtain ⟨sample, hsample, rfl⟩ := List.mem_map.mp hx
    obtain ⟨hpow, hpow'⟩ := twoPow_spec (k := 63) (by decide) (by decide)
    have hbound := (abs_le_iff (hfinite sample hsample) hpow).mp (hle sample hsample)
    exact ⟨hfinite sample hsample, hpow' ▸ hbound⟩

/-- From a new engine on, whatever it is called with: the readings and the factors are numbers, and
no reading is negative, just when the detector inputs are numbers. Moderate samples have such
inputs. -/
theorem finite_levels_iff {s : Settings} {rate : ℕ} {e : Engine} (hpos : 0 < rate)
    (hlt : rate < 2 ^ 32) (h : ofSettings s (.ofNat rate) = .ok e) {ops : List Op}
    (hops : ∀ op ∈ ops, op.compresses = true) :
    e.performAll ops = e.after (detected ops) ∧
      ((∀ d ∈ detected ops, (e.input d).isFinite = true) ↔
        (∀ level ∈ e.levels (detected ops), level.isFinite = true ∧ 0 ≤ level) ∧
          ∀ factor ∈ e.factors (detected ops), factor.isNaN = false) ∧
      ((∀ d ∈ detected ops, Moderate s d) → ∀ d ∈ detected ops, (e.input d).isFinite = true) := by
  obtain ⟨hregular, rfl⟩ := regular_of_ofSettings hpos hlt h
  refine ⟨e.performAll_eq_after hops, ⟨fun hinputs => ?_, fun hlevels => ?_⟩,
    fun hmoderate d hd => ?_⟩
  -- finite inputs keep the engine regular, and with it all readings and factors
  · obtain ⟨hlevels, hfactors⟩ := hregular.levels hinputs
    refine ⟨fun level hlevel => ?_, fun factor hfactor => (hfactors factor hfactor).isNaN_eq_false⟩
    obtain ⟨hfinite, hnonneg⟩ := hlevels level hlevel
    exact ⟨hfinite, (le_iff near_zero.finite hfinite).mpr (near_zero.value_eq.le.trans hnonneg)⟩
  · exact finite_input_of_levels fun level hlevel => (hlevels.1 level hlevel).1
  · exact finite_input_of_moderate (ne_nil_of_mem_detected hd) (hmoderate d hd)

/-- Two samples at half and at full scale. -/
theorem finite_levels_iff_full_scale :
    ∃ e, ofSettings {} (.ofNat 48000) = .ok e ∧
      (∀ level ∈ e.levels (detected [.processInPlace [⟨0x3f000000⟩, ⟨0xbf800000⟩] 1 2]),
        level.isFinite = true ∧ 0 ≤ level) ∧
      ∀ factor ∈ e.factors (detected [.processInPlace [⟨0x3f000000⟩, ⟨0xbf800000⟩] 1 2]),
        factor.isNaN = false := by
  have hops : ∀ op ∈ [Op.processInPlace [⟨0x3f000000⟩, ⟨0xbf800000⟩] 1 2],
      op.compresses = true := by
    intro op hop
    rw [List.mem_singleton.mp hop]
    rfl
  obtain ⟨e, he⟩ : ∃ e, ofSettings {} (.ofNat 48000) = .ok e := ⟨_, rfl⟩
  obtain ⟨-, hiff, hmoderate⟩ := finite_levels_iff (by decide) (by decide) he hops
  exact ⟨e, he, hiff.mp (hmoderate (by decide +kernel))⟩

/-- A sample of `1e30` is a number, but its square is none. -/
theorem not_forall_finite_levels :
    ¬∀ (s : Settings) (rate : ℕ) (e : Engine) (ops : List Op), 0 < rate → rate < 2 ^ 32 →
      ofSettings s (.ofNat rate) = .ok e → (∀ op ∈ ops, op.compresses = true) →
      (∀ d ∈ detected ops, ∀ x ∈ d, x.value.isFinite = true) →
      (∀ level ∈ e.levels (detected ops), level.isFinite = true ∧ 0 ≤ level) ∧
        ∀ factor ∈ e.factors (detected ops), factor.isNaN = false := by
  intro hall
  have hcalls : ∀ op ∈ [Op.processInPlace [⟨0x7149f2ca⟩] 1 1], op.compresses = true := by
    intro op hop
    rw [List.mem_singleton.mp hop]
    rfl
  obtain ⟨e, he⟩ : ∃ e, ofSettings {} (.ofNat 48000) = .ok e := ⟨_, rfl⟩
  -- the default settings follow the mean square
  have hsettings : e.settings = {} := by
    obtain rfl := Except.ok.inj he
    rfl
  obtain ⟨hlevels, -⟩ := hall {} 48000 e _ (by decide) (by decide) he hcalls (by decide +kernel)
  -- if all readings were finite, the input of this sample would be
  have hinput := finite_input_of_levels (fun level hlevel => (hlevels level hlevel).1)
    [⟨0x7149f2ca⟩] List.mem_cons_self
  have hover : (detectorInput .average .rms [Sample.value ⟨0x7149f2ca⟩]).isFinite = false := by
    decide +kernel
  rw [input, hsettings] at hinput
  exact absurd (hover.symm.trans hinput) Bool.false_ne_true

end DynamicRange.Engine
