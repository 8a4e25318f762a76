import DynamicRange.Proofs.Scalar.Error
import DynamicRange.Proofs.Settings.Validity

/-!
# Values of valid settings

What the check of the settings says of the numbers that they stand for.

## Key results

- `Range.bounds_of_contains`: a value in a range
- `Settings.Valid.threshold_bounds` and its like: the settings one by one
-/

namespace DynamicRange

open Binary Scalar

/-- A value in a range, as a number. -/
theorem Range.bounds_of_contains {r : Range} {a b : ℚ} {x : Float32} (hmin : Near r.min a 0)
    (hmax : Near r.max b 0) (h : r.contains x = true) :
    Finite x ∧ a ≤ value x ∧ value x ≤ b := by
  have hx : Finite x := isFinite_of_contains hmin.finite hmax.finite h
  -- the ends of the range are known numbers, and the comparisons are those of their values
  obtain ⟨hge, hle⟩ := (r.contains_iff x).mp h
  rw [le_iff hmin.finite hx, hmin.value_eq] at hge
  rw [le_iff hx hmax.finite, hmax.value_eq] at hle
  exact ⟨hx, hge, hle⟩

/-- A time from a hundredth of a millisecond up to some greatest one, between powers of two. -/
theorem Range.bounds_of_time {r : Range} {b : ℚ} {x : Float32} (hmin : r.min = 0.01)
    (hmax : Near r.max b 0) (hb : b ≤ 2 ^ (14 : ℤ)) (h : r.contains x = true) :
    Finite x ∧ 2 ^ (-7 : ℤ) ≤ value x ∧ value x ≤ 2 ^ (14 : ℤ) := by
  have hleast : unpacked (0.01 : Float32) = .finite .positive 10737418 (-30) (by decide) := rfl
  obtain ⟨hx, hge, hle⟩ :=
    Range.bounds_of_contains (hmin.symm ▸ near_of_unpacked hleast rfl) hmax h
  exact ⟨hx, le_trans (by norm_num [signed]) hge, hle.trans hb⟩

/-- The longest attack is 2000 ms. -/
private theorem near_attack_most : Near Range.attack.max 2000 0 := by
  have h : unpacked Range.attack.max = .finite .positive 16384000 (-13) (by decide) := rfl
  exact near_of_unpacked h (by norm_num [signed])

/-- The longest release is 9000 ms. -/
private theorem near_release_most : Near Range.release.max 9000 0 := by
  have h : unpacked Range.release.max = .finite .positive 9216000 (-10) (by decide) := rfl
  exact near_of_unpacked h (by norm_num [signed])

/-- A ratio that does not raise the level. -/
def Ratio.Allowed (ratio : Ratio Float32) : Prop :=
  ∀ r, ratio = .finite r → Finite r ∧ 1 ≤ Binary.value r

namespace Settings

variable {s : Settings} (h : s.Valid)
include h

/-- A valid threshold is a number between `0.0009765` and one. -/
theorem Valid.threshold_bounds :
    Finite s.threshold ∧ 0.0009765 ≤ value s.threshold ∧ value s.threshold ≤ 1 := by
  have hparts : unpacked Range.threshold.min = .finite .positive 8388612 (-33) (by decide) := rfl
  obtain ⟨hx, hge, hle⟩ :=
    Range.bounds_of_contains (near_of_unpacked hparts rfl) near_one h.threshold
  exact ⟨hx, le_trans (by norm_num [signed]) hge, hle⟩

/-- A valid width of the knee is a number between one and eight. -/
theorem Valid.knee_bounds : Finite s.knee ∧ 1 ≤ value s.knee ∧ value s.knee ≤ 8 := by
  have hparts : unpacked Range.knee.max = .finite .positive (2 ^ 23) (-20) (by decide) := rfl
  obtain ⟨hx, hge, hle⟩ := Range.bounds_of_contains near_one (near_of_unpacked hparts rfl) h.knee
  exact ⟨hx, hge, hle.trans (by norm_num [signed])⟩

/-- A valid ratio is a number from one on, or the limit. -/
theorem Valid.allowed_ratio : s.ratio.Allowed := by
  intro r hr
  have hparts : unpacked Range.ratio.max = .finite .positive 10485760 (-19) (by decide) := rfl
  obtain ⟨hx, hge, -⟩ :=
    Range.bounds_of_contains near_one (near_of_unpacked hparts rfl) (h.ratio r hr)
  exact ⟨hx, hge⟩

/-- A valid attack, between powers of two. -/
theorem Valid.attack_bounds : Finite s.attack ∧ 2 ^ (-7 : ℤ) ≤ value s.attack ∧
    value s.attack ≤ 2 ^ (14 : ℤ) :=
  Range.bounds_of_time rfl near_attack_most (by norm_num) h.attack

/-- A valid release, between powers of two. -/
theorem Valid.release_bounds : Finite s.release ∧ 2 ^ (-7 : ℤ) ≤ value s.release ∧
    value s.release ≤ 2 ^ (14 : ℤ) :=
  Range.bounds_of_time rfl near_release_most (by norm_num) h.release

/-- A valid make-up gain is a number between one and 64. -/
theorem Valid.makeup_bounds : Finite s.makeup ∧ 1 ≤ value s.makeup ∧ value s.makeup ≤ 64 := by
  have hmost : unpacked Range.makeup.max = .finite .positive (2 ^ 23) (-17) (by decide) := rfl
  obtain ⟨hx, hge, hle⟩ := Range.bounds_of_contains near_one (near_of_unpacked hmost rfl) h.makeup
  exact ⟨hx, hge, hle.trans (by norm_num [signed])⟩

/-- A valid mix is a number between zero and one. -/
theorem Valid.mix_bounds : Finite s.mix ∧ 0 ≤ value s.mix ∧ value s.mix ≤ 1 :=
  Range.bounds_of_contains near_zero near_one h.mix

end Settings

end DynamicRange
