import DynamicRange.Proofs.Engine.Stream
import DynamicRange.Proofs.Result
import DynamicRange.Proofs.Settings.Validity

/-!
# What an engine keeps beside its settings

An engine keeps the knee, the times and the coefficients that follow from its settings and its rate.
Configuring it derives them anew and does not touch what runs, the level and the meter; running it
changes only the level and the meter. So what is kept never disagrees with the settings, and the
settings stay valid.

## Key results

- `Coherent.perform_cases`: what an operation can do
- `Coherent.perform`, `Coherent.performAll`: operations keep the agreement
- `Coherent.running_perform`: configuring leaves what runs
-/

namespace DynamicRange.Engine

/-- The settings are valid, and what is kept beside them is what follows from them. -/
structure Coherent (e : Engine) : Prop where
  settings_valid : e.settings.validate = .ok ()
  knee_eq : e.knee = .make e.settings.threshold e.settings.ratio e.settings.knee
  attack_eq : e.envelope.attack = e.settings.attack
  release_eq : e.envelope.release = e.settings.release
  attackCoefficient_eq :
    e.envelope.attackCoefficient = Envelope.coefficient e.settings.attack e.rate
  releaseCoefficient_eq :
    e.envelope.releaseCoefficient = Envelope.coefficient e.settings.release e.rate

/-- What runs: the level of the detector and the meter. -/
def running (e : Engine) : Float × Float32 := (e.envelope.level, e.lastGain)

/-- The engine with another level and meter. -/
def withRunning (e : Engine) (running : Float × Float32) : Engine :=
  { e with envelope := { e.envelope with level := running.1 }, lastGain := running.2 }

/-! ### Running -/

/-- One sample changes the level and the meter, and nothing else. -/
theorem step_eq_withRunning (e : Engine) (d : List Sample) :
    (e.step d).2 = e.withRunning (e.step d).2.running :=
  rfl

/-- A run changes the level and the meter, and nothing else. -/
theorem after_eq_withRunning (e : Engine) (ds : List (List Sample)) :
    e.after ds = e.withRunning (e.after ds).running := by
  induction ds generalizing e with
  | nil => rfl
  | cons d ds ih =>
    -- the rest of the run starts from an engine that differs in what runs only
    have hrest := ih (e.step d).2
    rw [step_eq_withRunning] at hrest
    exact hrest

/-- Nothing that is derived depends on the level or the meter. -/
theorem Coherent.withRunning {e : Engine} (h : e.Coherent) (running : Float × Float32) :
    (e.withRunning running).Coherent :=
  { h with }

/-- A run keeps an engine coherent. -/
theorem Coherent.after {e : Engine} (h : e.Coherent) (ds : List (List Sample)) :
    (e.after ds).Coherent := by
  rw [after_eq_withRunning]
  exact h.withRunning _

/-- A run keeps the rate. -/
theorem rate_after (e : Engine) (ds : List (List Sample)) : (e.after ds).rate = e.rate := by
  rw [after_eq_withRunning]
  rfl

/-! ### Configuring -/

/-- A new engine is coherent, and has the rate asked for. -/
theorem coherent_of_ofSettings {s : Settings} {rate : Float32} {e : Engine}
    -- the check has passed, and the rest of the engine is computed from the settings
    (h : ofSettings s rate = .ok e) : e.Coherent ∧ e.rate = rate := by
  obtain ⟨u, hs, h⟩ := Result.bind_eq_ok_iff.mp h
  obtain rfl := Except.ok.inj h
  exact ⟨⟨hs, rfl, rfl, rfl, rfl, rfl⟩, rfl⟩

/-- Settings that are taken over bring what follows from them along. -/
theorem coherent_adopt (e : Engine) {s : Settings} (hs : s.validate = .ok ()) :
    (e.adopt s).Coherent :=
  ⟨hs, rfl, rfl, rfl, rfl, rfl⟩

/-- Settings are taken over when they pass the check, and refused with its report otherwise. -/
theorem setSettings_cases (e : Engine) (s : Settings) :
    (s.validate = .ok () ∧ e.setSettings s = .ok (e.adopt s)) ∨
      ∃ err, s.validate = .error err ∧ e.setSettings s = .error err := by
  unfold setSettings
  cases hs : s.validate with
  | error err => exact .inr ⟨err, rfl, rfl⟩
  | ok u => exact .inl ⟨rfl, rfl⟩

/-- A change of the rate computes both coefficients anew, from the times that are kept. -/
theorem Coherent.setRate {e : Engine} (h : e.Coherent) (rate : Float32) :
    (e.setRate rate).Coherent where
  settings_valid := h.settings_valid
  knee_eq := h.knee_eq
  attack_eq := h.attack_eq
  release_eq := h.release_eq
  attackCoefficient_eq := congrArg (Envelope.coefficient · rate) h.attack_eq
  releaseCoefficient_eq := congrArg (Envelope.coefficient · rate) h.release_eq

/-- No value that a control is set to makes the settings invalid. -/
theorem Coherent.validate_setParameter {e : Engine} (h : e.Coherent) (i : Nat) (x : Float32) :
    (Parametric.setParameter e.settings i x).validate = .ok () := by
  -- validity in the form of bounds is what setting a control preserves
  have hvalid := (Settings.validate_eq_ok_iff _).mp h.settings_valid
  exact (Settings.validate_eq_ok_iff _).mpr (hvalid.setParameter i x)

/-! ### Operations -/

/-- The calls that change an engine. -/
inductive Op where
  | setSettings (s : Settings)
  | setParameter (i : Nat) (x : Float32)
  | setRate (rate : Float32)
  | process (main : List Sample) (mainChannels : Nat) (detector : List Sample)
      (detectorChannels n : Nat)
  | processInPlace (signal : List Sample) (channels n : Nat)
  | reset

/-- Whether an operation configures the engine, and does not run it. -/
def Op.configures : Op → Bool
  | setSettings _ | setParameter .. | setRate _ => true
  | process .. | processInPlace .. | reset => false

/-- The engine after an operation. One that is refused leaves the engine as it is. -/
def perform (e : Engine) : Op → Engine
  | .setSettings s => (e.setSettings s).toOption.getD e
  | .setParameter i x => Parametric.setParameter e i x
  | .setRate rate => e.setRate rate
  | .process main mc detector dc n =>
    ((e.process? main mc detector dc n).map Prod.snd).getD e
  | .processInPlace signal channels n =>
    ((e.processInPlace? signal channels n).map Prod.snd).getD e
  | .reset => e.reset

/-- The engine after operations one after another. -/
def performAll (e : Engine) (ops : List Op) : Engine := ops.foldl perform e

/-- What an operation can do: take over valid settings, change the rate, or run. One that is refused
does nothing, which is to run without a change. -/
theorem Coherent.perform_cases {e : Engine} (h : e.Coherent) (op : Op) :
    (∃ s : Settings, s.validate = .ok () ∧ e.perform op = e.adopt s) ∨
      (∃ rate, op = .setRate rate ∧ e.perform op = e.setRate rate) ∨
      ∃ running, e.perform op = e.withRunning running ∧
        (op.configures = true → running = e.running) := by
  cases op with
  -- settings that are refused leave the engine as it is
  | setSettings s =>
    rcases e.setSettings_cases s with ⟨hs, heq⟩ | ⟨err, -, heq⟩
    · refine .inl ⟨s, hs, ?_⟩
      simp only [Engine.perform, heq]
      rfl
    · refine .inr (.inr ⟨e.running, ?_, fun _ => rfl⟩)
      simp only [Engine.perform, heq]
      rfl
  | setParameter i x => exact .inl ⟨_, h.validate_setParameter i x, rfl⟩
  | setRate rate => exact .inr (.inl ⟨rate, rfl, rfl⟩)
  | process main mc detector dc n =>
    -- refused when a buffer is too short or has no channels
    refine .inr (.inr ?_)
    simp only [Engine.perform, process?]
    -- a run in range changes only what runs
    split
    · rw [process_eq]
      exact ⟨_, e.after_eq_withRunning _, fun h => absurd h Bool.false_ne_true⟩
    · exact ⟨e.running, rfl, fun _ => rfl⟩
  | processInPlace signal channels n =>
    refine .inr (.inr ?_)
    simp only [Engine.perform, processInPlace?]
    -- in place the run is that of the signal with itself as its detector
    split
    · rw [processInPlace_eq_process, process_eq]
      exact ⟨_, e.after_eq_withRunning _, fun h => absurd h Bool.false_ne_true⟩
    · exact ⟨e.running, rfl, fun _ => rfl⟩
  | reset => exact .inr (.inr ⟨(0, 1), rfl, fun h => absurd h Bool.false_ne_true⟩)

/-- Every operation keeps an engine coherent. -/
theorem Coherent.perform {e : Engine} (h : e.Coherent) (op : Op) : (e.perform op).Coherent := by
  -- one case for each thing that an operation can do
  rcases h.perform_cases op with ⟨s, hs, heq⟩ | ⟨rate, -, heq⟩ | ⟨running, heq, -⟩
  · rw [heq]
    exact e.coherent_adopt hs
  · rw [heq]
    exact h.setRate rate
  · rw [heq]
    exact h.withRunning running

/-- Only `setRate` changes the rate. -/
theorem Coherent.rate_perform {e : Engine} (h : e.Coherent) (op : Op)
    (hop : ∀ rate, op ≠ .setRate rate) : (e.perform op).rate = e.rate := by
  rcases h.perform_cases op with ⟨s, -, heq⟩ | ⟨rate, hrate, -⟩ | ⟨running, heq, -⟩
  · rw [heq]
    rfl
  · exact absurd hrate (hop rate)
  · rw [heq]
    rfl

/-- Configuring does not alter the level or the meter. -/
theorem Coherent.running_perform {e : Engine} (h : e.Coherent) (op : Op)
    (hop : op.configures = true) : (e.perform op).running = e.running := by
  rcases h.perform_cases op with ⟨s, -, heq⟩ | ⟨rate, -, heq⟩ | ⟨running, heq, hrunning⟩
  · rw [heq]
    rfl
  · rw [heq]
    rfl
  · rw [heq, hrunning hop]
    rfl

/-- Every run of operations keeps an engine coherent. -/
theorem Coherent.performAll {e : Engine} (h : e.Coherent) (ops : List Op) :
    (e.performAll ops).Coherent := by
  induction ops generalizing e with
  | nil => exact h
  | cons op ops ih => exact ih (h.perform op)

end DynamicRange.Engine
