import DynamicRange.Proofs.Coherence
import DynamicRange.Proofs.Envelope
import DynamicRange.Proofs.Settings.Bounds

/-!
# The rate of a running compressor

A compressor is set up with a rate that is not zero, and a frame that tells no rate leaves the rate
as it is. A rate that is set is taken over as it is, zero included. So the rate is the last one that
was told, and it is zero exactly when zero was set and nothing has told a rate since. Every other
rate gives the coefficients a time constant; without a rate both of them are one.

## Key results

- `Compressor.rate_perform`, `Compressor.rate_performAll`: the rate after operations
- `Compressor.rate_performAll_eq_zero_iff`: when it is zero
- `Compressor.rate_of_reachable`: the rate and the coefficients in every state
-/

namespace DynamicRange.Compressor

open Binary

/-! ### The rate -/

/-- The rate that an operation tells. A frame without a rate tells none. -/
def Op.rate? : Op → Option ℕ
  | setRate rate => some rate
  | process f => if f.rate = 0 then none else some f.rate
  | setSettings _ | setParameter .. | reset => none

/-- A frame tells its rate, unless it has none. -/
theorem Op.rate?_process (f : Frame) :
    (Op.process f).rate? = if f.rate = 0 then none else some f.rate :=
  rfl

/-- A compressor takes over the rate that a frame tells. -/
theorem rate_follow (c : Compressor) (f : Frame) :
    (c.follow f).rate = (Op.process f).rate?.getD c.rate := by
  unfold follow
  rw [Op.rate?_process]
  split
  next h =>
    rw [if_neg h.2]
    rfl
  next h =>
    by_cases hzero : f.rate = 0
    · rw [if_pos hzero]
      rfl
    · rw [if_neg hzero]
      exact (not_not.mp fun hne => h ⟨hne, hzero⟩).symm

/-- An operation leaves the rate that it tells, or the one there was. -/
theorem rate_perform (c : Compressor) (op : Op) : (c.perform op).rate = op.rate?.getD c.rate := by
  cases op with
  | setSettings s =>
    rw [perform_setSettings]
    rfl
  | setParameter i x => rfl
  | setRate rate => rfl
  | process f => exact rate_follow c f
  | reset => rfl

/-- The rate is the last one that was told. -/
theorem rate_performAll (c : Compressor) (ops : List Op) :
    (c.performAll ops).rate = (ops.filterMap Op.rate?).getLast?.getD c.rate := by
  -- on the operations, for any rate to start from: one that is told replaces it
  induction ops generalizing c with
  | nil => rfl
  | cons op ops ih =>
    have hrest : (c.performAll (op :: ops)).rate = ((c.perform op).performAll ops).rate := rfl
    rw [hrest, ih, rate_perform]
    cases hop : op.rate? with
    | none => rw [List.filterMap_cons_none hop, Option.getD_none]
    | some rate =>
      rw [List.filterMap_cons_some hop, List.getLast?_cons, Option.getD_some, Option.getD_some]

/-- What is told is not zero, but for a rate that is set to zero. -/
theorem Op.rate?_eq_some_zero_iff (op : Op) : op.rate? = some 0 ↔ op = .setRate 0 := by
  cases op with
  | setRate rate => simp only [Op.rate?, Option.some.injEq, Op.setRate.injEq]
  | process f =>
    refine iff_of_false (fun h => ?_) nofun
    -- a frame without a rate tells nothing, and any other tells its own
    rw [Op.rate?_process] at h
    split at h
    next => exact nomatch h
    next hne => exact hne (Option.some.inj h)
  | setSettings | setParameter | reset => exact iff_of_false nofun nofun

/-- The rate is zero only while a zero that was set is the last rate told. -/
theorem rate_performAll_eq_zero_iff {c : Compressor} (hc : c.rate ≠ 0) (ops : List Op) :
    (c.performAll ops).rate = 0 ↔
      ∃ before after, ops = before ++ .setRate 0 :: after ∧ ∀ op ∈ after, op.rate? = none := by
  rw [rate_performAll]
  constructor
  · intro hzero
    obtain ⟨told, hlast⟩ : ∃ told, ops.filterMap Op.rate? = told ++ [0] := by
      cases hlast : (ops.filterMap Op.rate?).getLast? with
      | none =>
        rw [hlast] at hzero
        exact absurd hzero hc
      | some rate =>
        rw [hlast] at hzero
        obtain rfl : rate = 0 := hzero
        exact List.getLast?_eq_some_iff.mp hlast
    -- the operation that told the last rate, and nothing told after it
    obtain ⟨before, rest, rfl, -, hrest⟩ := List.filterMap_eq_append_iff.mp hlast
    obtain ⟨quiet, op, after, rfl, -, hop, hafter⟩ := List.filterMap_eq_cons_iff.mp hrest
    obtain rfl := op.rate?_eq_some_zero_iff.mp hop
    exact ⟨before ++ quiet, after, by rw [List.append_assoc],
      List.filterMap_eq_nil_iff.mp hafter⟩
  -- a zero that was set, and then nothing told
  · rintro ⟨before, after, rfl, hafter⟩
    have hnone : after.filterMap Op.rate? = [] := List.filterMap_eq_nil_iff.mpr hafter
    have hzero : (Op.setRate 0).rate? = some 0 := rfl
    rw [List.filterMap_append, List.filterMap_cons_some hzero, hnone, List.getLast?_concat,
      Option.getD_some]

/-- A compressor is set up with a rate, which is not zero. -/
theorem rate_of_ofSettings {s : Settings} {rate : ℕ} {c : Compressor}
    (h : ofSettings s rate = .ok c) : rate ≠ 0 ∧ c.rate = rate := by
  unfold ofSettings at h
  split at h
  next => exact nomatch h
  next hne =>
    obtain ⟨e, -, h⟩ := Result.bind_eq_ok_iff.mp h
    obtain rfl := Except.ok.inj h
    exact ⟨hne, rfl⟩

/-- A rate that is told is one of those bounded. -/
private theorem rate_performAll_lt {c : Compressor} {bound : ℕ} (hc : c.rate < bound)
    {ops : List Op} (hops : ∀ op ∈ ops, ∀ rate ∈ op.rate?, rate < bound) :
    (c.performAll ops).rate < bound := by
  rw [rate_performAll]
  -- the last rate told is that of an operation, or the one at the start is left
  cases hlast : (ops.filterMap Op.rate?).getLast? with
  | none => exact hc
  | some rate =>
    obtain ⟨op, hop, hrate⟩ := List.mem_filterMap.mp (List.mem_of_getLast? hlast)
    exact hops op hop rate hrate

/-! ### The coefficients -/

section Coefficients

variable {e : Engine} (h : e.Coherent)
include h

/-- Any rate gives both coefficients a time constant. -/
theorem follows_of_coherent {rate : ℕ} (hrate : e.rate = .ofNat rate) (hpos : 0 < rate)
    (hlt : rate < 2 ^ 32) :
    Follows (timeConstant e.settings.attack e.rate) e.envelope.attackCoefficient ∧
      Follows (timeConstant e.settings.release e.rate) e.envelope.releaseCoefficient := by
  -- valid settings have times between the powers of two that the coefficients need
  have hvalid := (Settings.validate_eq_ok_iff _).mp h.settings_valid
  obtain ⟨ha, ha₁, ha₂⟩ := hvalid.attack_bounds
  obtain ⟨hr, hr₁, hr₂⟩ := hvalid.release_bounds
  rw [h.attackCoefficient_eq, h.releaseCoefficient_eq, hrate]
  exact ⟨follows_coefficient ha ha₁ ha₂ hpos hlt, follows_coefficient hr hr₁ hr₂ hpos hlt⟩

/-- Without a rate both coefficients are one. -/
theorem coefficients_of_coherent (hrate : e.rate = 0) :
    e.envelope.attackCoefficient = 1 ∧ e.envelope.releaseCoefficient = 1 := by
  have hvalid := (Settings.validate_eq_ok_iff _).mp h.settings_valid
  obtain ⟨ha, ha₁, -⟩ := hvalid.attack_bounds
  obtain ⟨hr, hr₁, -⟩ := hvalid.release_bounds
  have hleast : (0 : ℚ) < 2 ^ (-7 : ℤ) := zpow_pos two_pos _
  rw [h.attackCoefficient_eq, h.releaseCoefficient_eq, hrate]
  exact ⟨coefficient_zero ha (hleast.trans_le ha₁), coefficient_zero hr (hleast.trans_le hr₁)⟩

end Coefficients

/-- Whatever has been done with a compressor since it was set up: its rate is the last one that was
told, by a frame or by `setRate`, and its engine has the same. The rate is zero exactly when zero
was set and no operation after that told a rate. While it is not zero, the rate of the engine is a
number from one on, and both coefficients follow from the time constants of the settings: they are
below one for every time constant of more than a sample. While it is zero, both are one. -/
theorem rate_of_reachable {s : Settings} {rate : ℕ} {c : Compressor}
    (h : ofSettings s rate = .ok c) (hrate : rate < 2 ^ 32) (ops : List Op)
    (hops : ∀ op ∈ ops, ∀ told ∈ op.rate?, told < 2 ^ 32) :
    let after := c.performAll ops
    after.rate = (ops.filterMap Op.rate?).getLast?.getD rate ∧
      after.engine.rate = .ofNat after.rate ∧
      (after.rate = 0 ↔
        ∃ early late, ops = early ++ .setRate 0 :: late ∧ ∀ op ∈ late, op.rate? = none) ∧
      (after.rate ≠ 0 → Finite after.engine.rate ∧ 1 ≤ value after.engine.rate ∧
        Follows (timeConstant after.engine.settings.attack after.engine.rate)
          after.engine.envelope.attackCoefficient ∧
        Follows (timeConstant after.engine.settings.release after.engine.rate)
          after.engine.envelope.releaseCoefficient) ∧
      (after.rate = 0 → after.engine.rate = 0 ∧
        after.engine.envelope.attackCoefficient = 1 ∧
        after.engine.envelope.releaseCoefficient = 1) := by
  obtain ⟨hne, hstart⟩ : rate ≠ 0 ∧ c.rate = rate := rate_of_ofSettings h
  -- one invariant of the whole run; the rate in it is known by the operations
  have hcoherent := (coherent_of_ofSettings h).performAll ops
  refine ⟨hstart ▸ rate_performAll c ops, hcoherent.rate_eq,
    rate_performAll_eq_zero_iff (hstart ▸ hne) ops, fun hpos => ?_, fun hzero => ?_⟩
  -- with a rate, the engine has it rounded, and the coefficients follow from it
  · have hpos := Nat.pos_of_ne_zero hpos
    have hlt := rate_performAll_lt (hstart ▸ hrate) hops
    obtain ⟨hfinite, hone, -⟩ := rate_bounds hpos hlt
    rw [← hcoherent.rate_eq] at hfinite hone
    exact ⟨hfinite, hone, follows_of_coherent hcoherent.engine_coherent hcoherent.rate_eq hpos hlt⟩
  · have hengine : (c.performAll ops).engine.rate = 0 := hcoherent.rate_eq.trans (hzero ▸ rfl)
    exact ⟨hengine, coefficients_of_coherent hcoherent.engine_coherent hengine⟩

/-- The rate of a frame is taken over; zero, once it is set, outlasts a frame without a rate. -/
theorem rate_of_reachable_silenced : ∃ c, ofSettings {} 48000 = .ok c ∧
    (let told : List Op := [.process ⟨1, 44100, [⟨1⟩], by decide, by decide⟩]
     (c.performAll told).rate = 44100 ∧
       Follows (timeConstant (c.performAll told).engine.settings.attack
         (c.performAll told).engine.rate) (c.performAll told).engine.envelope.attackCoefficient) ∧
    let silenced : List Op := [.process ⟨1, 44100, [⟨1⟩], by decide, by decide⟩, .setRate 0,
      .process ⟨1, 0, [⟨1⟩], by decide, by decide⟩]
    (c.performAll silenced).rate = 0 ∧
      (c.performAll silenced).engine.envelope.attackCoefficient = 1 := by
  have hsetup : ofSettings {} 48000 = .ok _ := rfl
  refine ⟨_, hsetup, ?_, ?_⟩
  · obtain ⟨hrate, -, -, hfollows, -⟩ := rate_of_reachable hsetup (by decide)
      [.process ⟨1, 44100, [⟨1⟩], by decide, by decide⟩] (by decide)
    have hrate := hrate.trans rfl
    exact ⟨hrate, (hfollows (hrate ▸ by decide)).2.2.1⟩
  · obtain ⟨hrate, -, -, -, hone⟩ := rate_of_reachable hsetup (by decide)
      [.process ⟨1, 44100, [⟨1⟩], by decide, by decide⟩, .setRate 0,
        .process ⟨1, 0, [⟨1⟩], by decide, by decide⟩] (by decide)
    have hrate := hrate.trans rfl
    exact ⟨hrate, (hone hrate).2.1⟩

/-- A compressor can be left without a rate. -/
theorem not_forall_rate_ne_zero :
    ¬ ∀ s rate c, ofSettings s rate = .ok c → rate < 2 ^ 32 → ∀ ops : List Op,
      (∀ op ∈ ops, ∀ told ∈ op.rate?, told < 2 ^ 32) →
      (c.performAll ops).rate ≠ 0 ∧ (c.performAll ops).engine.rate ≠ 0 :=
  fun h => (h {} 48000 _ rfl (by decide) [.setRate 0] (by decide)).1 rfl

end DynamicRange.Compressor
