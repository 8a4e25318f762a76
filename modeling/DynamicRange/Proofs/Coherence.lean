import DynamicRange.Proofs.Engine.Coherence
import DynamicRange.Proofs.Sidechain.Schedule

/-!
# Coherence of the compressors

A compressor configures and runs its engine, and tells it the sample rate that it keeps itself. In
every state that can be reached the engine is coherent and has that rate.

## Key results

- `Compressor.Coherent.perform`, `SidechainCompressor.Coherent.perform`: one operation
- `coherent_of_reachable`: all operations, on an engine and on both compressors
-/

namespace DynamicRange

/-! ### One stream -/

namespace Compressor

/-- The engine is coherent and has the rate of the compressor. -/
structure Coherent (c : Compressor) : Prop where
  engine_coherent : c.engine.Coherent
  rate_eq : c.engine.rate = .ofNat c.rate

/-- What can be done with a compressor of one stream. -/
inductive Op where
  | setSettings (s : Settings)
  | setParameter (i : Nat) (x : Float32)
  | setRate (rate : Nat)
  | process (f : Frame)
  | reset

/-- Whether an operation configures the compressor, and does not run it. -/
def Op.configures : Op → Bool
  | setSettings _ | setParameter .. | setRate _ => true
  | process _ | reset => false

/-- The compressor after an operation. One that is refused leaves it as it is. -/
def perform (c : Compressor) : Op → Compressor
  | .setSettings s => (c.setSettings s).toOption.getD c
  | .setParameter i x => Parametric.setParameter c i x
  | .setRate rate => c.setRate rate
  | .process f => (c.process f).2
  | .reset => c.reset

/-- The compressor after a run of operations. -/
def performAll (c : Compressor) (ops : List Op) : Compressor := ops.foldl perform c

/-- A compressor that is set up is coherent. -/
theorem coherent_of_ofSettings {s : Settings} {rate : Nat} {c : Compressor}
    (h : ofSettings s rate = .ok c) : c.Coherent := by
  unfold ofSettings at h
  split at h
  · exact nomatch h
  obtain ⟨e, he, h⟩ := Result.bind_eq_ok_iff.mp h
  have he := Result.mapError_eq_ok_iff.mp he
  obtain rfl := Except.ok.inj h
  obtain ⟨hcoherent, hrate⟩ := Engine.coherent_of_ofSettings he
  exact ⟨hcoherent, hrate⟩

/-- Settings are given to the engine as they are, and refused where it refuses them. -/
theorem perform_setSettings (c : Compressor) (s : Settings) :
    c.perform (.setSettings s) = { c with engine := c.engine.perform (.setSettings s) } := by
  rcases c.engine.setSettings_cases s with ⟨-, heq⟩ | ⟨err, -, heq⟩ <;>
    simp only [perform, setSettings, Engine.perform, heq] <;> rfl

/-- Another rate is told to the engine. -/
theorem Coherent.setRate {c : Compressor} (h : c.Coherent) (rate : Nat) :
    (c.setRate rate).Coherent where
  engine_coherent := h.engine_coherent.setRate _
  rate_eq := rfl

/-- A frame that brings another rate leaves the compressor coherent. -/
theorem Coherent.follow {c : Compressor} (h : c.Coherent) (f : Frame) : (c.follow f).Coherent := by
  unfold Compressor.follow
  split
  · exact h.setRate f.rate
  · exact h

/-- Compressing a frame leaves the compressor coherent. -/
theorem Coherent.process {c : Compressor} (h : c.Coherent) (f : Frame) :
    (c.process f).2.Coherent := by
  -- the rate is settled before the frame is compressed
  have hfollow := h.follow f
  simp only [Compressor.process, Engine.processInPlace_eq_process, Engine.process_eq]
  exact ⟨hfollow.engine_coherent.after _, (Engine.rate_after ..).trans hfollow.rate_eq⟩

/-- One operation. Only `process` and `setRate` change the rate, and they tell the engine. -/
theorem Coherent.perform {c : Compressor} (h : c.Coherent) (op : Op) :
    (c.perform op).Coherent := by
  cases op with
  | setSettings s =>
    rw [perform_setSettings]
    exact ⟨h.engine_coherent.perform (.setSettings s),
      (h.engine_coherent.rate_perform (.setSettings s) nofun).trans h.rate_eq⟩
  | setParameter i x => exact ⟨h.engine_coherent.perform (.setParameter i x), h.rate_eq⟩
  | setRate rate => exact h.setRate rate
  | process f => exact h.process f
  | reset => exact ⟨h.engine_coherent.perform .reset, h.rate_eq⟩

/-- By induction on the operations: each leaves the compressor coherent. -/
theorem Coherent.performAll {c : Compressor} (h : c.Coherent) (ops : List Op) :
    (c.performAll ops).Coherent := by
  induction ops generalizing c with
  | nil => exact h
  | cons op ops ih => exact ih (h.perform op)

/-- Configuring the compressor does not touch what runs. -/
theorem Coherent.running_perform {c : Compressor} (h : c.Coherent) (op : Op)
    (hop : op.configures = true) : (c.perform op).engine.running = c.engine.running := by
  cases op with
  -- settings are for the engine to take; a parameter and a rate do not reach the level or the meter
  | setSettings s =>
    rw [perform_setSettings]
    exact h.engine_coherent.running_perform (.setSettings s) rfl
  | setParameter i x => rfl
  | setRate rate => rfl
  | process | reset => exact nomatch hop

/-- Neither does a frame that brings another rate, before it is compressed. -/
theorem running_follow (c : Compressor) (f : Frame) :
    (c.follow f).engine.running = c.engine.running := by
  unfold follow
  split <;> rfl

end Compressor

/-! ### Two lines -/

namespace SidechainCompressor

/-- The engine is coherent and has the rate of the main line. -/
structure Coherent (formats : PerLine Format) (c : SidechainCompressor) : Prop where
  engine_coherent : c.engine.Coherent
  rate_eq : c.engine.rate = .ofNat formats.main.rate
  formats_eq : c.pairing.formats = formats
  wellFormed : c.pairing.WellFormed

/-- What can be done with a compressor of two lines. -/
inductive Op where
  | setSettings (s : Settings)
  | setParameter (i : Nat) (x : Float32)
  | push (line : Line) (f : Frame)
  | reset

/-- Whether an operation configures the compressor, and does not run it. -/
def Op.configures : Op → Bool
  | setSettings _ | setParameter .. => true
  | push .. | reset => false

/-- The compressor after an operation. One that is refused leaves it as it is. -/
def perform (c : SidechainCompressor) : Op → SidechainCompressor
  | .setSettings s => (c.setSettings s).toOption.getD c
  | .setParameter i x => Parametric.setParameter c i x
  | .push line f => (c.feed line f).2
  | .reset => c.reset

/-- The compressor after a run of operations. -/
def performAll (c : SidechainCompressor) (ops : List Op) : SidechainCompressor :=
  ops.foldl perform c

/-- A compressor of two lines that is set up is coherent, and holds nothing. -/
theorem coherent_of_ofSettings {s : Settings} {formats : PerLine Format} {c : SidechainCompressor}
    (h : ofSettings s formats = .ok c) : c.Coherent formats := by
  obtain ⟨e, he, -, rfl⟩ := eq_of_ofSettings h
  obtain ⟨hcoherent, hrate⟩ := Engine.coherent_of_ofSettings he
  exact ⟨hcoherent, hrate, rfl, Pairing.wellFormed_empty formats⟩

/-- Settings are given to the engine as they are, and refused where it refuses them. -/
theorem perform_setSettings (c : SidechainCompressor) (s : Settings) :
    c.perform (.setSettings s) = { c with engine := c.engine.perform (.setSettings s) } := by
  rcases c.engine.setSettings_cases s with ⟨-, heq⟩ | ⟨err, -, heq⟩ <;>
    simp only [perform, setSettings, Engine.perform, heq] <;> rfl

variable {formats : PerLine Format} {c : SidechainCompressor}

/-- A frame that completes a span takes the engine through it. -/
theorem Coherent.feed (h : c.Coherent formats) (line : Line) (f : Frame) :
    (c.feed line f).2.Coherent formats := by
  -- a frame of the right format may complete a span, which takes the engine through it
  by_cases hf : f.format = c.pairing.formats.get line
  · obtain ⟨q, block, c', hpush, hd, hq, hformats, -⟩ := push_of_format_eq h.wellFormed hf
    have hfeed : (c.feed line f).2 = c' := by simp only [SidechainCompressor.feed, hpush]
    rw [hfeed]
    refine ⟨?_, ?_, hd.formats_eq.trans (hformats.trans h.formats_eq), hd.wellFormed⟩
    · rw [hd.engine_eq]
      exact h.engine_coherent.after _
    · rw [hd.engine_eq]
      exact (Engine.rate_after ..).trans h.rate_eq
  -- a frame of another format is refused, and nothing has changed
  · obtain ⟨err, hpush⟩ := push_of_format_ne h.wellFormed hf
    have hfeed : (c.feed line f).2 = c := by simp only [SidechainCompressor.feed, hpush]
    rw [hfeed]
    exact h

/-- One operation. None changes the rate. -/
theorem Coherent.perform (h : c.Coherent formats) (op : Op) :
    (c.perform op).Coherent formats := by
  cases op with
  | setSettings s =>
    rw [perform_setSettings]
    exact { h with
      engine_coherent := h.engine_coherent.perform (.setSettings s)
      rate_eq := (h.engine_coherent.rate_perform (.setSettings s) nofun).trans h.rate_eq }
  | setParameter i x =>
    exact { h with engine_coherent := h.engine_coherent.perform (.setParameter i x) }
  | push line f => exact h.feed line f
  | reset =>
    exact { h with
      engine_coherent := h.engine_coherent.perform .reset
      wellFormed := Pairing.wellFormed_empty _ }

/-- By induction on the operations: each leaves the compressor of two lines coherent. -/
theorem Coherent.performAll (h : c.Coherent formats) (ops : List Op) :
    (c.performAll ops).Coherent formats := by
  induction ops generalizing c with
  | nil => exact h
  | cons op ops ih => exact ih (h.perform op)

/-- Configuring the compressor does not touch what runs. -/
theorem Coherent.running_perform (h : c.Coherent formats) (op : Op)
    (hop : op.configures = true) : (c.perform op).engine.running = c.engine.running := by
  cases op with
  | setSettings s =>
    rw [perform_setSettings]
    exact h.engine_coherent.running_perform (.setSettings s) rfl
  | setParameter i x => rfl
  | push | reset => exact nomatch hop

end SidechainCompressor

/-! ### Every state that can be reached -/

/-- Whatever has been done with an engine since it was set up, by itself or inside a compressor: its
settings pass the check; the knee, the times and the coefficients are those of the settings and the
rate; the rate is that of the compressor; and to configure it further, or to follow the rate of a
frame, alters neither the level nor the meter. -/
theorem coherent_of_reachable :
    (∀ s rate e, Engine.ofSettings s rate = .ok e → ∀ ops,
        (e.performAll ops).Coherent ∧
        ∀ op : Engine.Op, op.configures = true →
          ((e.performAll ops).perform op).running = (e.performAll ops).running) ∧
      (∀ s rate c, Compressor.ofSettings s rate = .ok c → ∀ ops,
        (c.performAll ops).engine.Coherent ∧
        (c.performAll ops).engine.rate = .ofNat (c.performAll ops).rate ∧
        (∀ op : Compressor.Op, op.configures = true →
          ((c.performAll ops).perform op).engine.running = (c.performAll ops).engine.running) ∧
        ∀ f, ((c.performAll ops).follow f).engine.running = (c.performAll ops).engine.running) ∧
      ∀ s formats c, SidechainCompressor.ofSettings s formats = .ok c → ∀ ops,
        (c.performAll ops).engine.Coherent ∧
        (c.performAll ops).engine.rate = .ofNat formats.main.rate ∧
        ∀ op : SidechainCompressor.Op, op.configures = true →
          ((c.performAll ops).perform op).engine.running = (c.performAll ops).engine.running := by
  refine ⟨fun s rate e he ops => ?_, fun s rate c hc ops => ?_, fun s formats c hc ops => ?_⟩
  · have h := (Engine.coherent_of_ofSettings he).1.performAll ops
    exact ⟨h, h.running_perform⟩
  · have h := (Compressor.coherent_of_ofSettings hc).performAll ops
    exact ⟨h.engine_coherent, h.rate_eq, h.running_perform, Compressor.running_follow _⟩
  · have h := (SidechainCompressor.coherent_of_ofSettings hc).performAll ops
    exact ⟨h.engine_coherent, h.rate_eq, h.running_perform⟩

/-- Settings that are refused, a mix that is not a number, and infinite rates and ratios. -/
theorem coherent_of_reachable_default :
    (∃ e, Engine.ofSettings {} 48000 = .ok e ∧
        (e.performAll [.setSettings { mix := 2 }, .setRate Scalar.infinity,
          .setParameter 1 Scalar.infinity]).Coherent) ∧
      (∃ c, Compressor.ofSettings {} 48000 = .ok c ∧
        (c.performAll [.process ⟨1, 44100, [⟨1⟩], by decide, by decide⟩,
          .setParameter 8 Scalar.nan]).engine.Coherent) ∧
      ∃ c, SidechainCompressor.ofSettings {} ⟨⟨2, 48000⟩, ⟨1, 48000⟩⟩ = .ok c ∧
        (c.performAll [.push .main ⟨2, 48000, [⟨1⟩, ⟨2⟩], by decide, by decide⟩,
          .setParameter 0 (-1), .push .sidechain ⟨1, 48000, [⟨3⟩], by decide, by decide⟩,
          .reset]).engine.Coherent :=
  ⟨⟨_, rfl, (coherent_of_reachable.1 {} 48000 _ rfl _).1⟩,
    ⟨_, rfl, (coherent_of_reachable.2.1 {} 48000 _ rfl _).1⟩,
    ⟨_, rfl, (coherent_of_reachable.2.2 {} ⟨⟨2, 48000⟩, ⟨1, 48000⟩⟩ _ rfl _).1⟩⟩

end DynamicRange
