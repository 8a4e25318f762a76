import Mathlib
import DynamicRange.Envelope

/-!
# The follower over an ordered field

Read exactly, one input moves the level along the way to the input and never past it. So a level
stays among the inputs, and with a constant input the gap shrinks by the same factor at every
sample: which of the two coefficients is in force depends on the side from which the level comes,
and it stays on that side. The one exception is the flush of values next to zero. It cannot pull
down a level that rises, since no level but zero lies below the bound of the flush; and a level that
falls is flushed only toward an input below that bound, after which it stays at zero.

## Main definitions

* `glide`: the level after one magnitude, before the flush; `Flushes`: whether the flush changes it
* `followAll`: the level after a list of magnitudes
* `Rest`: the levels that the flush leaves alone

## Key results

- `gap_glide`: what one magnitude leaves of the gap
- `Rest.rise`, `fall_or_flush`: one magnitude, from below and from above
- `Rest.followAll_mem`, `Rest.rise_replicate`, `fall_replicate`, `gap_replicate`: whole runs
- `smoothingCoefficient_mem`, `smoothingCoefficient_anti`: the coefficients
- `follow_settles`: all of it together
-/

namespace DynamicRange

section Arithmetic

variable {α : Type} [Add α] [Sub α] [Mul α] [Neg α] [LT α] [DecidableLT α] [OfNat α 0]
  [OfScientific α]

/-- The level after one magnitude, before it is flushed. -/
def glide (attack release level x : α) : α :=
  level + (x - level) * (if level < x then attack else release)

/-- Whether a magnitude leaves a level that is flushed. -/
def Flushes (attack release level x : α) : Prop :=
  follow attack release level x ≠ glide attack release level x

/-- The level after a list of magnitudes. -/
def followAll (attack release level : α) (xs : List α) : α := xs.foldl (follow attack release) level

/-- One more sample of a constant magnitude is one more step. -/
theorem followAll_replicate_succ (attack release level x : α) (n : ℕ) :
    followAll attack release level (List.replicate (n + 1) x) =
      follow attack release (followAll attack release level (List.replicate n x)) x := by
  rw [List.replicate_succ', followAll, List.foldl_append]
  rfl

end Arithmetic

/-- The follower takes in its inputs, rectified, one after another. -/
theorem Envelope.processAll_snd (e : Envelope) (inputs : List Float32) :
    (e.processAll inputs).2 = { e with
      level := followAll e.attackCoefficient e.releaseCoefficient e.level
        (inputs.map fun x => Scalar.widen x.abs) } := by
  -- in terms of the loop, whose state is the readings so far and the envelope
  have hfold (state : List Float32 × Envelope) :
      (inputs.foldl (fun state x => ((state.2.process x).reading :: state.1, state.2.process x))
        state).2 = { state.2 with
          level := followAll state.2.attackCoefficient state.2.releaseCoefficient state.2.level
            (inputs.map fun x => Scalar.widen x.abs) } := by
    induction inputs generalizing state with
    | nil => rfl
    | cons x xs ih => exact ih _
  exact hfold ([], e)

section Field

variable {α : Type} [Field α] [LinearOrder α] [IsStrictOrderedRing α]
variable {attack release level x : α}

/-! ### The flush -/

/-- A level that the flush leaves alone. -/
def Rest (level : α) : Prop := level = 0 ∨ 1e-20 ≤ level

/-- A level at rest is not negative. -/
theorem Rest.nonneg (h : Rest level) : 0 ≤ level := by
  rcases h with rfl | h
  · exact le_rfl
  · exact le_trans (by norm_num) h

omit [IsStrictOrderedRing α] in
/-- A level from `1e-20` on is kept. -/
theorem flushTiny_of_le (hx : 1e-20 ≤ x) : flushTiny x = x := if_neg fun h => h.2.not_ge hx

/-- A level between zero and `1e-20` becomes zero. -/
theorem flushTiny_of_lt (hx : 0 ≤ x) (hlt : x < 1e-20) : flushTiny x = 0 :=
  if_pos ⟨lt_of_lt_of_le (by norm_num) hx, hlt⟩

/-- The flush leaves a level at rest. -/
theorem rest_flushTiny (hx : 0 ≤ x) : Rest (flushTiny x) := by
  rcases lt_or_ge x 1e-20 with hlt | hge
  · exact .inl (flushTiny_of_lt hx hlt)
  · rw [flushTiny_of_le hge]
    exact .inr hge

/-! ### One magnitude -/

omit [LinearOrder α] [IsStrictOrderedRing α] in
/-- One magnitude leaves the rest of the gap that its coefficient does not take. -/
theorem gap_glide [LinearOrder α] (attack release level x : α) :
    x - glide attack release level x =
      (1 - if level < x then attack else release) * (x - level) := by
  rw [glide]
  ring

section Step

variable (ha : attack ∈ Set.Ioc 0 1) (hr : release ∈ Set.Ioc 0 1)
include ha hr

omit [IsStrictOrderedRing α] in
/-- Either coefficient is a share of the way. -/
private theorem share_mem (level x : α) :
    (if level < x then attack else release) ∈ Set.Ioc (0 : α) 1 := by
  split
  · exact ha
  · exact hr

/-- Up to a magnitude the level rises. -/
theorem glide_mem_of_le (h : level ≤ x) : glide attack release level x ∈ Set.Icc level x := by
  obtain ⟨hpos, hle⟩ := share_mem ha hr level x
  have hway : 0 ≤ x - level := sub_nonneg.mpr h
  -- the level moves by a share of the way, and so not past the magnitude
  refine ⟨le_add_of_nonneg_right (mul_nonneg hway hpos.le), ?_⟩
  have hshare := mul_le_of_le_one_right hway hle
  rw [glide]
  linarith

/-- Down to a magnitude the level falls. -/
theorem glide_mem_of_ge (h : x ≤ level) : glide attack release level x ∈ Set.Icc x level := by
  obtain ⟨hpos, hle⟩ := share_mem ha hr level x
  have hway : x - level ≤ 0 := sub_nonpos.mpr h
  -- the way is downwards, and a share of it is not below all of it
  refine ⟨?_, add_le_of_nonpos_right (mul_nonpos_of_nonpos_of_nonneg hway hpos.le)⟩
  have hshare := le_mul_of_le_one_right hway hle
  rw [glide]
  linarith

/-- Between levels that are not negative the level does not become negative. -/
theorem glide_nonneg (hl : 0 ≤ level) (hx : 0 ≤ x) : 0 ≤ glide attack release level x := by
  rcases le_total level x with h | h
  · exact hl.trans (glide_mem_of_le ha hr h).1
  · exact hx.trans (glide_mem_of_ge ha hr h).1

/-- A flush puts a level below its bound to zero. -/
theorem Flushes.eq_zero (hl : 0 ≤ level) (hx : 0 ≤ x) (h : Flushes attack release level x) :
    glide attack release level x < 1e-20 ∧ follow attack release level x = 0 := by
  have hlt : glide attack release level x < 1e-20 :=
    -- the flush changes only what is below its bound
    lt_of_not_ge fun hge => h (flushTiny_of_le hge)
  exact ⟨hlt, flushTiny_of_lt (glide_nonneg ha hr hl hx) hlt⟩

/-- One magnitude leaves a level at rest. -/
theorem Rest.step (hl : Rest level) (hx : 0 ≤ x) : Rest (follow attack release level x) :=
  rest_flushTiny (glide_nonneg ha hr hl.nonneg hx)

/-- From below, the level rises up to the magnitude. -/
theorem Rest.rise (hl : Rest level) (h : level ≤ x) :
    follow attack release level x ∈ Set.Icc level x := by
  have hx : 0 ≤ x := hl.nonneg.trans h
  have hglide := glide_mem_of_le ha hr h
  -- flushed or not; without the flush the level is where it glides to
  by_cases hflush : Flushes attack release level x
  · obtain ⟨hlt, hzero⟩ := hflush.eq_zero ha hr hl.nonneg hx
    -- a level below the bound is zero already
    have hlevel : level = 0 := hl.resolve_right (hglide.1.trans_lt hlt).not_ge
    rw [hzero, hlevel]
    exact ⟨le_rfl, hx⟩
  · rwa [not_not.mp hflush]

/-- From above, the level falls down to the magnitude, or is flushed. -/
theorem fall_or_flush (hx : 0 ≤ x) (h : x ≤ level) :
    follow attack release level x ≤ level ∧
      (x ≤ follow attack release level x ∨ follow attack release level x = 0 ∧ x < 1e-20 ∧
        Flushes attack release level x) := by
  -- the magnitude bounds the level from below all the way
  have hl : 0 ≤ level := hx.trans h
  have hglide := glide_mem_of_ge ha hr h
  by_cases hflush : Flushes attack release level x
  · obtain ⟨hlt, hzero⟩ := hflush.eq_zero ha hr hl hx
    exact ⟨hzero.le.trans hl, .inr ⟨hzero, hglide.1.trans_lt hlt, hflush⟩⟩
  · rw [not_not.mp hflush]
    exact ⟨hglide.2, .inl hglide.1⟩

/-- An input below the bound of the flush does not raise the level from zero. -/
theorem follow_zero (hx : 0 ≤ x) (hlt : x < 1e-20) : follow attack release 0 x = 0 :=
  flushTiny_of_lt (glide_nonneg ha hr le_rfl hx) ((glide_mem_of_le ha hr hx).2.trans_lt hlt)

/-! ### Runs -/

/-- The level stays below what bounds it at the start and all magnitudes. -/
theorem Rest.followAll_mem {xs : List α} {bound : α} (hl : Rest level) (hle : level ≤ bound)
    (hxs : ∀ x ∈ xs, 0 ≤ x ∧ x ≤ bound) :
    Rest (followAll attack release level xs) ∧ followAll attack release level xs ≤ bound := by
  -- the induction is on the magnitudes; the bound and the rest hold at every level on the way
  induction xs generalizing level with
  | nil => exact ⟨hl, hle⟩
  | cons x xs ih =>
    obtain ⟨⟨hx, hxle⟩, hxs⟩ := List.forall_mem_cons.mp hxs
    have hnext : follow attack release level x ≤ bound := by
      -- upwards the magnitude bounds the next level, downwards the level before
      rcases le_total level x with h | h
      · exact (hl.rise ha hr h).2.trans hxle
      · exact (fall_or_flush ha hr hx h).1.trans hle
    exact ih (hl.step ha hr hx) hnext hxs

/-- A constant magnitude from below: it is all that the level has to stay under. -/
theorem Rest.rise_replicate (hl : Rest level) (h : level ≤ x) (n : ℕ) :
    followAll attack release level (List.replicate n x) ≤
        followAll attack release level (List.replicate (n + 1) x) ∧
      followAll attack release level (List.replicate n x) ≤ x := by
  -- the level is at rest and has not passed the magnitude
  have hinvariant : Rest (followAll attack release level (List.replicate n x)) ∧
      followAll attack release level (List.replicate n x) ≤ x :=
    hl.followAll_mem ha hr h fun y hy => by
      obtain rfl := List.eq_of_mem_replicate hy
      exact ⟨hl.nonneg.trans h, le_rfl⟩
  rw [followAll_replicate_succ]
  exact ⟨(hinvariant.1.rise ha hr hinvariant.2).1, hinvariant.2⟩

/-- A constant magnitude from above. By induction on the number of samples: the level has not yet
passed the magnitude, or it has been flushed and is zero. -/
theorem fall_replicate (hx : 0 ≤ x) (h : x ≤ level) (n : ℕ) :
    followAll attack release level (List.replicate (n + 1) x) ≤
        followAll attack release level (List.replicate n x) ∧
      (x ≤ followAll attack release level (List.replicate n x) ∨
        followAll attack release level (List.replicate n x) = 0 ∧ x < 1e-20 ∧
          ∃ i < n, Flushes attack release
            (followAll attack release level (List.replicate i x)) x) := by
  have hinvariant : x ≤ followAll attack release level (List.replicate n x) ∨
      followAll attack release level (List.replicate n x) = 0 ∧ x < 1e-20 ∧
        ∃ i < n, Flushes attack release
          (followAll attack release level (List.replicate i x)) x := by
    induction n with
    | zero => exact .inl h
    | succ n ih =>
      rw [followAll_replicate_succ]
      rcases ih with hge | ⟨hzero, hlt, i, hi, hflush⟩
      -- not yet flushed: this sample is where the flush may happen
      · refine (fall_or_flush ha hr hx hge).2.imp_right fun ⟨hzero, hlt, hflush⟩ => ?_
        exact ⟨hzero, hlt, n, n.lt_succ_self, hflush⟩
      -- flushed before: a level of zero stays at zero
      · rw [hzero, follow_zero ha hr hx hlt]
        exact .inr ⟨rfl, hlt, i, hi.trans n.lt_succ_self, hflush⟩
  refine ⟨?_, hinvariant⟩
  rw [followAll_replicate_succ]
  rcases hinvariant with hge | ⟨hzero, hlt, -⟩
  · exact (fall_or_flush ha hr hx hge).1
  · rw [hzero, follow_zero ha hr hx hlt]

/-- Without a flush the gap to a constant magnitude shrinks by the same factor at every sample. By
induction on the number of samples: what is left of the gap has the sign of the gap at the start, so
the coefficient does not change on the way. -/
theorem gap_replicate {n : ℕ}
    (hflush : ∀ i < n, ¬Flushes attack release
      (followAll attack release level (List.replicate i x)) x) :
    x - followAll attack release level (List.replicate n x) =
      (1 - if level < x then attack else release) ^ n * (x - level) := by
  induction n with
  | zero => simp [followAll]
  | succ n ih =>
    have hgap := ih fun i hi => hflush i (hi.trans n.lt_succ_self)
    have hstep := not_not.mp (hflush n n.lt_succ_self)
    rw [followAll_replicate_succ, hstep, gap_glide, pow_succ', mul_assoc, ← hgap]
    generalize followAll attack release level (List.replicate n x) = held at hgap
    -- the rest of the gap has the sign of the gap
    have hleft : 0 ≤ (1 - if level < x then attack else release) ^ n :=
      pow_nonneg (sub_nonneg.mpr (share_mem ha hr level x).2) n
    rcases eq_or_ne held x with rfl | hne
    · rw [sub_self, mul_zero, mul_zero]
    · -- what is left has the sign of the gap at the start, so the same coefficient is in force
      have hside : held < x ↔ level < x := by
        refine ⟨fun hlt => lt_of_not_ge fun hge => ?_, fun hlt => lt_of_le_of_ne ?_ hne⟩
        · have hnonpos := mul_nonpos_of_nonneg_of_nonpos hleft (sub_nonpos.mpr hge)
          rw [← hgap] at hnonpos
          exact (sub_pos.mpr hlt).not_ge hnonpos
        · rw [← sub_nonneg, hgap]
          exact mul_nonneg hleft (sub_nonneg.mpr hlt.le)
      simp only [hside]

end Step

/-! ### Coefficients -/

omit [IsStrictOrderedRing α] in
/-- The coefficient is the quotient, limited to one. -/
theorem smoothingCoefficient_eq (time rate : α) :
    smoothingCoefficient time rate = min (1 / (time * rate / 4000)) 1 := by
  rw [smoothingCoefficient, min_def_lt]

/-- A positive time at a positive rate gives a share of the way. -/
theorem smoothingCoefficient_mem {time rate : α} (ht : 0 < time) (hr : 0 < rate) :
    smoothingCoefficient time rate ∈ Set.Ioc 0 1 := by
  rw [smoothingCoefficient_eq]
  exact ⟨lt_min (by positivity) zero_lt_one, min_le_right _ _⟩

/-- Longer times and higher rates have smaller coefficients. -/
theorem smoothingCoefficient_anti {time time' rate rate' : α} (ht : 0 < time) (hr : 0 < rate)
    (htime : time ≤ time') (hrate : rate ≤ rate') :
    smoothingCoefficient time' rate' ≤ smoothingCoefficient time rate := by
  have ht' : 0 < time' := ht.trans_le htime
  rw [smoothingCoefficient_eq, smoothingCoefficient_eq]
  gcongr

/-! ### All of it -/

omit [IsStrictOrderedRing α] in
/-- Zero and the members of a list do not lie above their maximum. -/
private theorem foldr_max_spec (xs : List α) :
    0 ≤ xs.foldr max 0 ∧ ∀ x ∈ xs, x ≤ xs.foldr max 0 := by
  induction xs with
  | nil => exact ⟨le_rfl, nofun⟩
  | cons y ys ih =>
    -- the maximum of the rest is not above that of the list
    refine ⟨ih.1.trans (le_max_right _ _), List.forall_mem_cons.mpr ⟨le_max_left _ _, ?_⟩⟩
    exact fun x hx => (ih.2 x hx).trans (le_max_right _ _)

/-- The level stays between zero and the loudest input, at rest. With a constant input it approaches
the magnitude from its own side, and the gap shrinks by the factor of that side until the level is
flushed. The coefficients are shares of the way, smaller for longer times and higher rates. -/
theorem follow_settles (ha : attack ∈ Set.Ioc 0 1) (hr : release ∈ Set.Ioc 0 1) :
    (∀ inputs : List α,
      let level := followAll attack release 0 (inputs.map abs)
      0 ≤ level ∧ level ≤ (inputs.map abs).foldr max 0 ∧ (level = 0 ∨ 1e-20 ≤ level)) ∧
    (∀ level : α, level = 0 ∨ 1e-20 ≤ level → ∀ x : α,
      let after n := followAll attack release level (List.replicate n |x|)
      (level ≤ |x| → ∀ n, after n ≤ after (n + 1) ∧ after n ≤ |x|) ∧
      (|x| < level → ∀ n, after (n + 1) ≤ after n ∧
        (|x| ≤ after n ∨
          after n = 0 ∧ |x| < 1e-20 ∧ ∃ i < n, Flushes attack release (after i) |x|)) ∧
      ∀ n, (∀ i < n, ¬Flushes attack release (after i) |x|) →
        |x| - after n = (1 - if level < |x| then attack else release) ^ n * (|x| - level)) ∧
    (∀ time rate : α, 0 < time → 0 < rate → smoothingCoefficient time rate ∈ Set.Ioc 0 1) ∧
    ∀ time time' rate rate' : α, 0 < time → 0 < rate → time ≤ time' → rate ≤ rate' →
      smoothingCoefficient time' rate' ≤ smoothingCoefficient time rate := by
  refine ⟨fun inputs => ?_, fun level hl x => ?_, fun _ _ => smoothingCoefficient_mem,
    fun _ _ _ _ => smoothingCoefficient_anti⟩
  · obtain ⟨hnonneg, hle⟩ := foldr_max_spec (inputs.map abs)
    -- the magnitudes of the inputs are not negative, and no higher than their maximum
    have hmagnitudes : ∀ y ∈ inputs.map abs, 0 ≤ y ∧ y ≤ (inputs.map abs).foldr max 0 := by
      refine fun y hy => ⟨?_, hle y hy⟩
      obtain ⟨input, -, rfl⟩ := List.mem_map.mp hy
      exact abs_nonneg input
    obtain ⟨hrest, hbound⟩ := Rest.followAll_mem ha hr (.inl rfl) hnonneg hmagnitudes
    exact ⟨hrest.nonneg, hbound, hrest⟩
  · exact ⟨Rest.rise_replicate ha hr hl, fun h => fall_replicate ha hr (abs_nonneg x) h.le,
      fun n => gap_replicate ha hr⟩

/-- Half the way up and a quarter of the way down: from zero, after a loud and a quiet input, and
with a constant input after three samples. -/
theorem follow_settles_rat :
    followAll (1 / 2) (1 / 4 : ℚ) 0 ([1, -1 / 4].map abs) ≤ 1 ∧
    followAll (1 / 2) (1 / 4 : ℚ) 0 ([1, -1 / 4].map abs) = 7 / 16 ∧
    1 - followAll (1 / 2) (1 / 4 : ℚ) 0 (List.replicate 3 1) = (1 - 1 / 2) ^ 3 ∧
    smoothingCoefficient (10 : ℚ) 48000 ≤ smoothingCoefficient 5 44100 := by
  have ha : (1 / 2 : ℚ) ∈ Set.Ioc 0 1 := ⟨by norm_num, by norm_num⟩
  have hr : (1 / 4 : ℚ) ∈ Set.Ioc 0 1 := ⟨by norm_num, by norm_num⟩
  have hsettles := follow_settles ha hr
  refine ⟨?_, by decide +kernel, ?_, ?_⟩
  -- the bound for the two inputs is the louder of them
  · obtain ⟨-, hle, -⟩ := hsettles.1 [1, -1 / 4]
    exact hle.trans (by decide +kernel)
  -- three samples from zero, none of which is flushed
  · have hgap := (hsettles.2.1 0 (.inl rfl) 1).2.2 3 fun i hi => by
      interval_cases i <;> exact not_not.mpr (by decide +kernel)
    simpa using hgap
  · exact hsettles.2.2.2 5 10 44100 48000 (by norm_num) (by norm_num) (by norm_num) (by norm_num)

end Field

end DynamicRange
