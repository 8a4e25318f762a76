import DynamicRange.Proofs.Observation

/-!
# Reset

A reset clears the level, the meter and what is held, and nothing else. Since all the rest follows
from the settings, the rate and the formats, what is left is what a new engine or compressor with
these would be: no trace of the history remains.

## Key results

- `Engine.Coherent.ofSettings_eq_reset`, `Compressor.Coherent.ofSettings_eq_reset`,
  `SidechainCompressor.Coherent.ofSettings_eq_reset`: setting up anew gives the state after a reset
- `ofSettings_eq_reset_of_reachable`: in every state that can be reached
-/

namespace DynamicRange

/-- Setting up an engine with its settings at its rate gives what a reset leaves. -/
theorem Engine.Coherent.ofSettings_eq_reset {e : Engine} (h : e.Coherent) :
    ofSettings e.settings e.rate = .ok e.reset := by
  -- the coefficients follow from the times and the rate, and the level starts at zero
  have henvelope : Envelope.ofTimes e.rate e.settings.attack e.settings.release =
      e.envelope.reset := by
    simp only [Envelope.ofTimes, Envelope.derive, Envelope.reset, h.attackCoefficient_eq,
      h.releaseCoefficient_eq, h.attack_eq, h.release_eq]
    rfl
  rw [ofSettings, h.settings_valid, henvelope, ← h.knee_eq]
  rfl

namespace Compressor

/-- Setting up a compressor with its settings at its rate gives what a reset leaves. A rate of zero,
which `setRate` does not rule out, cannot be set up. -/
theorem Coherent.ofSettings_eq_reset {c : Compressor} (h : c.Coherent) (hrate : c.rate ≠ 0) :
    ofSettings c.engine.settings c.rate = .ok c.reset := by
  have hengine := h.engine_coherent.ofSettings_eq_reset
  rw [h.rate_eq] at hengine
  rw [ofSettings, if_neg hrate, hengine]
  rfl

end Compressor

namespace SidechainCompressor

/-- The formats that a compressor has been set up with can be paired again. -/
theorem ofFormats_of_ofSettings {s : Settings} {formats : PerLine Format}
    {c : SidechainCompressor} (h : ofSettings s formats = .ok c) :
    Pairing.ofFormats formats = .ok { formats, slots := ⟨none, none⟩ } := by
  obtain ⟨p, hp, -⟩ := Result.bind_eq_ok_iff.mp h
  have hp := Result.mapError_eq_ok_iff.mp hp
  rw [hp, Pairing.eq_of_ofFormats hp]

/-- Setting up a compressor with its settings and formats gives what a reset leaves. -/
theorem Coherent.ofSettings_eq_reset {formats : PerLine Format} {c : SidechainCompressor}
    (h : c.Coherent formats)
    (hformats : Pairing.ofFormats formats = .ok { formats, slots := ⟨none, none⟩ }) :
    ofSettings c.engine.settings c.pairing.formats = .ok c.reset := by
  have hengine := h.engine_coherent.ofSettings_eq_reset
  rw [h.rate_eq] at hengine
  rw [ofSettings, h.formats_eq, hformats, hengine, reset, Pairing.reset, h.formats_eq]
  rfl

end SidechainCompressor

/-- Whatever has been done with an engine or a compressor since it was set up, a reset leaves what
setting one up with its settings, rate and formats gives, field by field; so the two cannot be told
apart by later operations, neither by what these answer nor by what can be read. -/
theorem ofSettings_eq_reset_of_reachable :
    (∀ s rate e, Engine.ofSettings s rate = .ok e → ∀ ops,
        let d := e.performAll ops
        ∃ fresh, Engine.ofSettings d.settings d.rate = .ok fresh ∧ d.reset = fresh ∧
          ∀ later, d.reset.observe later = fresh.observe later) ∧
      (∀ s rate c, Compressor.ofSettings s rate = .ok c → ∀ ops,
        let d := c.performAll ops
        d.rate ≠ 0 →
          ∃ fresh, Compressor.ofSettings d.engine.settings d.rate = .ok fresh ∧ d.reset = fresh ∧
            ∀ later, d.reset.observe later = fresh.observe later) ∧
      ∀ s formats c, SidechainCompressor.ofSettings s formats = .ok c → ∀ ops,
        let d := c.performAll ops
        ∃ fresh, SidechainCompressor.ofSettings d.engine.settings d.pairing.formats = .ok fresh ∧
          d.reset = fresh ∧ ∀ later, d.reset.observe later = fresh.observe later := by
  refine ⟨fun s rate e he ops => ?_, fun s rate c hc ops hrate => ?_,
    fun s formats c hc ops => ?_⟩
  -- what a reset leaves is coherent, with the settings and the rate that it was set up with
  · have h := (Engine.coherent_of_ofSettings he).1.performAll ops
    exact ⟨_, h.ofSettings_eq_reset, rfl, fun _ => rfl⟩
  · have h := (Compressor.coherent_of_ofSettings hc).performAll ops
    exact ⟨_, h.ofSettings_eq_reset hrate, rfl, fun _ => rfl⟩
  · have h := (SidechainCompressor.coherent_of_ofSettings hc).performAll ops
    have hformats := SidechainCompressor.ofFormats_of_ofSettings hc
    exact ⟨_, h.ofSettings_eq_reset hformats, rfl, fun _ => rfl⟩

/-- After a signal, another rate and refused settings; and with two samples held. -/
theorem ofSettings_eq_reset_of_reachable_default :
    (∃ e, Engine.ofSettings {} 48000 = .ok e ∧
        let d := e.performAll [.processInPlace [⟨1⟩] 1 1, .setRate Scalar.infinity,
          .setSettings { mix := 2 }]
        Engine.ofSettings d.settings d.rate = .ok d.reset) ∧
      (∃ c, Compressor.ofSettings {} 48000 = .ok c ∧
        let d := c.performAll [.process ⟨1, 44100, [⟨1⟩], by decide, by decide⟩,
          .setParameter 8 Scalar.nan]
        Compressor.ofSettings d.engine.settings d.rate = .ok d.reset) ∧
      ∃ c, SidechainCompressor.ofSettings {} ⟨⟨2, 48000⟩, ⟨1, 48000⟩⟩ = .ok c ∧
        let d := c.performAll [.push .main ⟨2, 48000, [⟨1⟩, ⟨2⟩, ⟨3⟩, ⟨4⟩], by decide, by decide⟩]
        SidechainCompressor.ofSettings d.engine.settings d.pairing.formats = .ok d.reset := by
  refine ⟨⟨_, rfl, ?_⟩, ⟨_, rfl, ?_⟩, ⟨_, rfl, ?_⟩⟩
  · obtain ⟨_, h, rfl, -⟩ := ofSettings_eq_reset_of_reachable.1 {} 48000 _ rfl
      [.processInPlace [⟨1⟩] 1 1, .setRate Scalar.infinity, .setSettings { mix := 2 }]
    exact h
  · obtain ⟨_, h, rfl, -⟩ := ofSettings_eq_reset_of_reachable.2.1 {} 48000 _ rfl
      [.process ⟨1, 44100, [⟨1⟩], by decide, by decide⟩, .setParameter 8 Scalar.nan] (by decide)
    exact h
  · obtain ⟨_, h, rfl, -⟩ :=
      ofSettings_eq_reset_of_reachable.2.2 {} ⟨⟨2, 48000⟩, ⟨1, 48000⟩⟩ _ rfl
        [.push .main ⟨2, 48000, [⟨1⟩, ⟨2⟩, ⟨3⟩, ⟨4⟩], by decide, by decide⟩]
    exact h

end DynamicRange
