import DynamicRange.Levels
import DynamicRange.Link
import DynamicRange.Proofs.Scalar.Order
import DynamicRange.Proofs.Scalar.Sign

/-!
# Peaks

A peak is the largest magnitude of a list, and a NaN has no part in it. With NaN as the least of all
magnitudes the comparison of magnitudes is a linear order, and the peak is a least upper bound in it.
So neither the order of the samples matters nor how they are split, and the bits of a peak are those
of the magnitude, since no two floats without a sign have one magnitude.

## Main definitions

* `Binary.magnitude`: the magnitude of a float

## Key results

- `Binary.abs_eq_abs_iff`, `Binary.abs_lt_abs_iff`: magnitudes are compared
- `Levels.magnitude_peakOf_le_iff`: the peak is the least upper bound
- `Levels.peakOf_eq_iff`, `Levels.peakOf_le_iff`: peaks are compared by their magnitudes
- `Levels.peakOf_perm`: the order of the samples does not matter
-/

namespace DynamicRange

namespace Binary

open Float.Model (UnpackedFloat)
open Float.Model.UnpackedFloat

/-! ### Magnitudes -/

/-- The magnitude of an unpacked float. That of a NaN is below all others. -/
def magnitudeOf : UnpackedFloat → WithBot (WithTop ℚ)
  | .notANumber => ⊥
  | .infinity _ => (⊤ : WithTop ℚ)
  | .zero _ => (0 : WithTop ℚ)
  | .finite _ m e _ => ((m * 2 ^ e : ℚ) : WithTop ℚ)

/-- The magnitude of a float. -/
def magnitude (x : Float32) : WithBot (WithTop ℚ) := magnitudeOf (unpacked x)

variable {x y : Float32}

/-- The sign does not count. -/
@[simp]
theorem magnitude_abs (x : Float32) : magnitude x.abs = magnitude x := by
  rw [magnitude, magnitude, unpacked_abs]
  cases unpacked x <;> rfl

/-- A float without its sign has none to take off. -/
theorem abs_abs_eq (x : Float32) : x.abs.abs = x.abs := by
  apply eq_of_unpacked_eq
  rw [unpacked_abs, unpacked_abs]
  cases unpacked x <;> rfl

/-- Zero has no sign to take off. -/
theorem zero_abs : (0 : Float32).abs = 0 := eq_of_unpacked_eq rfl

/-- The magnitude of a number is that of its value. -/
theorem magnitude_of_finite (hx : Finite x) : magnitude x = ((|value x| : ℚ) : WithTop ℚ) := by
  rw [Finite] at hx
  rw [magnitude, value, ← toRat_abs]
  -- neither an infinity nor a NaN is finite
  cases hu : unpacked x with
  | infinity s | notANumber =>
    rw [hu] at hx
    exact absurd hx Bool.false_ne_true
  | zero s | finite s m e hm => rfl

/-- What a float is without its sign. -/
theorem magnitude_cases (x : Float32) :
    Finite x ∧ magnitude x = ((|value x| : ℚ) : WithTop ℚ) ∨
      x.abs = Scalar.infinity ∧ magnitude x = (⊤ : WithTop ℚ) ∨
      x.abs = Scalar.nan ∧ magnitude x = ⊥ := by
  rcases finite_or_infinity_or_nan x with hx | rfl | rfl | rfl
  · exact .inl ⟨hx, magnitude_of_finite hx⟩
  · exact .inr (.inl ⟨eq_of_unpacked_eq rfl, rfl⟩)
  · exact .inr (.inl ⟨eq_of_unpacked_eq rfl, rfl⟩)
  · exact .inr (.inr ⟨eq_of_unpacked_eq rfl, rfl⟩)

/-- Numbers are the same beyond the two points added to them. -/
private theorem coe_coe_inj {a b : ℚ} :
    ((a : WithTop ℚ) : WithBot (WithTop ℚ)) = (b : WithTop ℚ) ↔ a = b := by
  rw [WithBot.coe_inj, WithTop.coe_inj]

/-- Without its sign a zero is the positive zero. -/
private theorem unpacked_abs_of_value_eq_zero (hx : Finite x) (hzero : value x = 0) :
    unpacked x.abs = .zero .positive := by
  obtain ⟨s, hs⟩ := exists_zero_of_value_eq_zero hx hzero
  rw [unpacked_abs, hs]
  rfl

/-- Floats of one magnitude differ in the sign only. -/
theorem abs_eq_abs_iff : x.abs = y.abs ↔ magnitude x = magnitude y := by
  refine ⟨fun h => by rw [← magnitude_abs x, h, magnitude_abs], fun h => ?_⟩
  -- a magnitude tells numbers, infinities and NaN apart, so only like ones are left
  rcases magnitude_cases x with ⟨hx, hmx⟩ | ⟨hx, hmx⟩ | ⟨hx, hmx⟩ <;>
    rcases magnitude_cases y with ⟨hy, hmy⟩ | ⟨hy, hmy⟩ | ⟨hy, hmy⟩ <;>
    rw [hmx, hmy] at h
  · -- two numbers: a zero is told by its unpacked form, every other by its value
    rw [coe_coe_inj] at h
    by_cases hzero : value x = 0
    · have hzero' : value y = 0 := by rwa [hzero, abs_zero, eq_comm, abs_eq_zero] at h
      exact eq_of_unpacked_eq ((unpacked_abs_of_value_eq_zero hx hzero).trans
        (unpacked_abs_of_value_eq_zero hy hzero').symm)
    · obtain ⟨hx', hvx⟩ := abs_exact hx
      obtain ⟨hy', hvy⟩ := abs_exact hy
      exact eq_of_value_eq hx' hy' (by rw [hvx, hvy, h]) (by rwa [hvx, Ne, abs_eq_zero])
  · exact absurd (WithBot.coe_inj.mp h) WithTop.coe_ne_top
  · exact absurd h WithBot.coe_ne_bot
  · exact absurd (WithBot.coe_inj.mp h) WithTop.top_ne_coe
  · rw [hx, hy]
  · exact absurd h WithBot.coe_ne_bot
  · exact absurd h WithBot.bot_ne_coe
  · exact absurd h WithBot.bot_ne_coe
  · rw [hx, hy]

/-- Floats without their signs are compared by their magnitudes; a NaN is below none. -/
theorem abs_lt_abs_iff : x.abs < y.abs ↔ ⊥ < magnitude x ∧ magnitude x < magnitude y := by
  -- `x` is a number, an infinity or a NaN
  rcases magnitude_cases x with ⟨hx, hmx⟩ | ⟨hx, hmx⟩ | ⟨hx, hmx⟩
  · have hbot : (⊥ : WithBot (WithTop ℚ)) < ((|value x| : ℚ) : WithTop ℚ) := WithBot.bot_lt_coe _
    obtain ⟨hx', hvx⟩ := abs_exact hx
    rcases magnitude_cases y with ⟨hy, hmy⟩ | ⟨hy, hmy⟩ | ⟨hy, hmy⟩ <;> rw [hmx, hmy]
    · obtain ⟨hy', hvy⟩ := abs_exact hy
      rw [lt_iff hx' hy', hvx, hvy, WithBot.coe_lt_coe, WithTop.coe_lt_coe]
      exact ⟨fun h => ⟨hbot, h⟩, And.right⟩
    · rw [hy]
      exact iff_of_true (lt_infinity hx') ⟨hbot, WithBot.coe_lt_coe.mpr (WithTop.coe_lt_top _)⟩
    · rw [hy]
      exact iff_of_false (not_lt_nan _) fun h => not_lt_bot h.2
  · -- nothing is above an infinity
    have htop : ¬((⊤ : WithTop ℚ) : WithBot (WithTop ℚ)) < magnitude y := by
      rcases magnitude_cases y with ⟨-, hmy⟩ | ⟨-, hmy⟩ | ⟨-, hmy⟩ <;> rw [hmy]
      · exact fun h => not_top_lt (WithBot.coe_lt_coe.mp h)
      · exact lt_irrefl _
      · exact not_lt_bot
    rw [hx, hmx]
    refine iff_of_false ?_ fun h => htop h.2
    rcases magnitude_cases y with ⟨hy, -⟩ | ⟨hy, -⟩ | ⟨hy, -⟩
    · exact not_infinity_lt (abs_exact hy).1
    · rw [hy]
      exact Scalar.not_lt_self _
    · rw [hy]
      exact not_lt_nan _
  · rw [hx, hmx]
    exact iff_of_false (not_nan_lt _) fun h => lt_irrefl _ h.1

/-- The least magnitude is that of NaN alone. -/
theorem magnitude_eq_bot_iff : magnitude x = ⊥ ↔ x.isNaN = true := by
  have hnan : x.isNaN = (unpacked x).isNaN := rfl
  rw [hnan, magnitude]
  cases unpacked x with
  | notANumber => exact iff_of_true rfl rfl
  | infinity s | zero s | finite s m e hm => exact iff_of_false WithBot.coe_ne_bot Bool.false_ne_true

/-- Of two magnitudes the larger one is the supremum. -/
theorem magnitude_larger (x y : Float32) :
    magnitude (Scalar.larger x.abs y.abs) = max (magnitude x) (magnitude y) := by
  have hnan : x.abs.isNaN = true ↔ magnitude x = ⊥ := by
    rw [← magnitude_eq_bot_iff, magnitude_abs]
  -- the test of the comparison, in magnitudes
  have hiff : (decide (x.abs < y.abs) || x.abs.isNaN) = true ↔
      magnitude x < magnitude y ∨ magnitude x = ⊥ := by
    rw [Bool.or_eq_true, decide_eq_true_iff, abs_lt_abs_iff, hnan, bot_lt_iff_ne_bot]
    tauto
  rw [Scalar.larger]
  split
  next h =>
    rw [magnitude_abs, max_eq_right]
    exact (hiff.mp h).elim le_of_lt fun hbot => hbot ▸ bot_le
  next h =>
    rw [magnitude_abs, max_eq_left]
    exact not_lt.mp fun hlt => h (hiff.mpr (.inl hlt))

/-- The larger of two magnitudes has no sign. -/
theorem abs_larger (x y : Float32) :
    (Scalar.larger x.abs y.abs).abs = Scalar.larger x.abs y.abs := by
  unfold Scalar.larger
  split <;> exact abs_abs_eq _

end Binary

/-! ### Peaks -/

namespace Levels

open Binary

variable {xs ys : List Float32}

/-- The fold of a peak has no sign, and is the least upper bound of where it starts and what it
meets. -/
private theorem foldl_larger_bounds (xs : List Float32) {peak : Float32} (hpeak : peak.abs = peak) :
    let last := xs.foldl (fun peak x => Scalar.larger peak x.abs) peak
    last.abs = last ∧ ∀ b, magnitude last ≤ b ↔ magnitude peak ≤ b ∧ ∀ x ∈ xs, magnitude x ≤ b := by
  induction xs generalizing peak with
  | nil => exact ⟨hpeak, fun b => by simp⟩
  | cons x xs ih =>
    -- the larger of the peak so far and the next magnitude is the supremum of both
    have hnext := abs_larger peak x
    have hsup := magnitude_larger peak x
    rw [hpeak] at hnext hsup
    obtain ⟨habs, hle⟩ := ih hnext
    refine ⟨habs, fun b => (hle b).trans ?_⟩
    rw [hsup, max_le_iff, List.forall_mem_cons, and_assoc]

/-- A peak has no sign. -/
theorem abs_peakOf (xs : List Float32) : (peakOf xs).abs = peakOf xs :=
  (foldl_larger_bounds xs zero_abs).1

/-- The peak is the least upper bound of zero and the magnitudes. -/
theorem magnitude_peakOf_le_iff (xs : List Float32) (b : WithBot (WithTop ℚ)) :
    magnitude (peakOf xs) ≤ b ↔ magnitude 0 ≤ b ∧ ∀ x ∈ xs, magnitude x ≤ b :=
  (foldl_larger_bounds xs zero_abs).2 b

/-- No sample is above the peak. -/
theorem magnitude_le_peakOf {x : Float32} (hx : x ∈ xs) : magnitude x ≤ magnitude (peakOf xs) :=
  ((magnitude_peakOf_le_iff xs _).mp le_rfl).2 x hx

/-- A peak over more samples is not smaller. -/
theorem magnitude_peakOf_le_of_subset (h : xs ⊆ ys) :
    magnitude (peakOf xs) ≤ magnitude (peakOf ys) :=
  (magnitude_peakOf_le_iff xs _).mpr
    ⟨((magnitude_peakOf_le_iff ys _).mp le_rfl).1, fun _ hx => magnitude_le_peakOf (h hx)⟩

/-- Peaks of one magnitude are the same bit for bit. -/
theorem peakOf_eq_iff : peakOf xs = peakOf ys ↔ magnitude (peakOf xs) = magnitude (peakOf ys) := by
  rw [← abs_eq_abs_iff, abs_peakOf, abs_peakOf]

/-- A peak is no NaN, so peaks are compared by their magnitudes. -/
theorem peakOf_le_iff : peakOf xs ≤ peakOf ys ↔ magnitude (peakOf xs) ≤ magnitude (peakOf ys) := by
  have hnan (zs : List Float32) : ⊥ < magnitude (peakOf zs) :=
    (WithBot.bot_lt_coe _).trans_le ((magnitude_peakOf_le_iff zs _).mp le_rfl).1
  have hnumber (zs : List Float32) : (peakOf zs).isNaN = false :=
    Bool.eq_false_iff.mpr (mt magnitude_eq_bot_iff.mpr (hnan zs).ne')
  -- neither of the peaks is NaN, so being above is being larger in magnitude
  have hlt : peakOf ys < peakOf xs ↔ magnitude (peakOf ys) < magnitude (peakOf xs) := by
    rw [← abs_peakOf xs, ← abs_peakOf ys, abs_lt_abs_iff, magnitude_abs, magnitude_abs]
    exact and_iff_right (hnan ys)
  rw [← not_lt (a := magnitude (peakOf ys)), ← hlt]
  exact ⟨Scalar.not_lt_of_le, Scalar.le_of_not_lt (hnumber xs) (hnumber ys)⟩

/-- The order of the samples does not matter. -/
theorem peakOf_perm (h : xs.Perm ys) : peakOf xs = peakOf ys :=
  peakOf_eq_iff.mpr ((magnitude_peakOf_le_of_subset h.subset).antisymm
    (magnitude_peakOf_le_of_subset h.symm.subset))

end Levels

end DynamicRange
