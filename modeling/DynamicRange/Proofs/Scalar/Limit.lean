import DynamicRange.Proofs.Scalar.Order
import DynamicRange.Proofs.Scalar.Special

/-!
# Limiting and rounding keep the order

A number that is limited to an interval, or rounded to the nearest natural number, is not overtaken
by a smaller one. Infinities are limited as the numbers beyond the ends are.

## Key results

- `limit_of_mem`: what lies in the interval stays
- `limit_mono`, `nearestIndex_mono`: both keep the order
-/

namespace DynamicRange.Scalar

open Binary
open Float.Model (UnpackedFloat)

variable {x y lo hi : Float32}

/-! ### Transitivity beside a finite number -/

/-- What is at most something below a finite number is below that number, infinities included. -/
theorem lt_of_le_of_lt (hhi : Finite hi) (h : x ≤ y) (hy : y < hi) : x < hi := by
  -- `y` is not NaN and `hi` is finite, so `y` is a number or minus infinity
  rcases finite_or_infinity_or_nan y with hfinite | rfl | rfl | rfl
  · rcases finite_or_infinity_or_nan x with hx | rfl | rfl | rfl
    · rw [le_iff hx hfinite] at h
      rw [lt_iff hfinite hhi] at hy
      exact (lt_iff hx hhi).mpr (h.trans_lt hy)
    · exact absurd h (not_infinity_le hfinite)
    · exact neg_infinity_lt hhi
    · exact absurd (not_isNaN_of_le h).1 (by decide)
  · exact absurd hy (not_infinity_lt hhi)
  · rcases finite_or_infinity_or_nan x with hx | rfl | rfl | rfl
    -- nothing but minus infinity is at most minus infinity
    · exact absurd h (not_le_neg_infinity hx)
    · exact absurd h (by decide)
    · exact hy
    · exact absurd (not_isNaN_of_le h).1 (by decide)
  · exact absurd hy (not_nan_lt hi)

/-- What is at least something above a finite number is above that number, infinities included. -/
theorem lt_of_lt_of_le (hlo : Finite lo) (hx : lo < x) (h : x ≤ y) : lo < y := by
  -- the mirror image: `x` is a number or plus infinity
  rcases finite_or_infinity_or_nan x with hfinite | rfl | rfl | rfl
  · rcases finite_or_infinity_or_nan y with hy | rfl | rfl | rfl
    · rw [le_iff hfinite hy] at h
      rw [lt_iff hlo hfinite] at hx
      exact (lt_iff hlo hy).mpr (hx.trans_le h)
    · exact lt_infinity hlo
    · exact absurd h (not_le_neg_infinity hfinite)
    · exact absurd (not_isNaN_of_le h).2 (by decide)
  · rcases finite_or_infinity_or_nan y with hy | rfl | rfl | rfl
    · exact absurd h (not_infinity_le hy)
    · exact hx
    · exact absurd h (by decide)
    · exact absurd (not_isNaN_of_le h).2 (by decide)
  · exact absurd hx (not_lt_neg_infinity hlo)
  · exact absurd hx (not_lt_nan lo)

/-! ### Infinity -/

/-- Nothing is above infinity. -/
theorem eq_infinity_of_le (h : infinity ≤ x) : x = infinity := by
  rcases finite_or_infinity_or_nan x with hfinite | rfl | rfl | rfl
  · exact absurd h (not_infinity_le hfinite)
  · rfl
  · exact absurd h (by decide)
  · exact absurd (not_isNaN_of_le h).2 (by decide)

/-- The test for infinity accepts infinity alone. -/
theorem beq_infinity_iff (x : Float32) : (x == infinity) = true ↔ x = infinity := by
  constructor
  · intro h
    -- equal floats that differ in their bits are the two zeros
    rcases (Float32.beq_iff_ne_nan_and_eq.mp h).2.2 with heq | ⟨-, hzero⟩ | ⟨-, hzero⟩
    · exact heq
    · exact absurd hzero (by decide)
    · exact absurd hzero (by decide)
  · rintro rfl
    rfl

/-! ### Limiting -/

/-- What lies in the interval stays. -/
theorem limit_of_mem (hlo : lo ≤ x) (hhi : x ≤ hi) : limit lo hi x = x := by
  rw [limit, if_neg (not_lt_of_le hlo), if_neg (not_lt_of_le hhi)]

/-- Limiting keeps the order, if the ends are numbers. -/
theorem limit_mono (hlo : Finite lo) (hhi : Finite hi) (hle : lo ≤ hi) (h : x ≤ y) :
    limit lo hi x ≤ limit lo hi y := by
  -- neither is NaN, so the three cases below are all there are
  obtain ⟨hx, hy⟩ := not_isNaN_of_le h
  by_cases hxlo : x < lo
  · -- the least value there is
    have hleast : limit lo hi x = lo := if_pos hxlo
    rw [hleast]
    exact le_limit hle hy
  have hylo : ¬y < lo := fun hlt => hxlo (lt_of_le_of_lt hlo h hlt)
  by_cases hyhi : hi < y
  · -- the greatest value there is
    have hgreatest : limit lo hi y = hi := by rw [limit, if_neg hylo, if_pos hyhi]
    rw [hgreatest]
    exact limit_le hle hx
  -- between the ends both stay
  have hxhi : ¬hi < x := fun hlt => hyhi (lt_of_lt_of_le hhi hlt h)
  rw [limit, if_neg hxlo, if_neg hxhi, limit, if_neg hylo, if_neg hyhi]
  exact h

/-! ### Rounding -/

/-- A half more does not change the integer part of a natural number. -/
private theorem floor_add_half (n : ℕ) : ⌊(n : ℚ) + 1 / 2⌋₊ = n := by
  rw [Nat.floor_eq_iff (by positivity)]
  constructor <;> linarith

/-- Adding half of the divisor before a division rounds to nearest. -/
private theorem shiftRight_add_half (m d : ℕ) :
    (2 * m + 1 <<< d) >>> (d + 1) = ⌊(m : ℚ) * 2 ^ (-d : ℤ) + 1 / 2⌋₊ := by
  -- both shifts as one quotient of natural numbers
  have hquotient : (m : ℚ) * 2 ^ (-d : ℤ) + 1 / 2 =
      ((2 * m + 2 ^ d : ℕ) : ℚ) / ((2 ^ (d + 1) : ℕ) : ℚ) := by
    push_cast
    rw [zpow_neg, zpow_natCast, pow_succ]
    field_simp
  rw [hquotient, Nat.floor_div_eq_div, Nat.shiftRight_eq_div_pow, Nat.shiftLeft_eq, one_mul]

/-- The nearest natural number is the integer part of what is larger by a half. -/
theorem nearestIndex_eq (hx : Finite x) (hnonneg : 0 ≤ value x) :
    nearestIndex x = min (2 ^ 64 - 1) ⌊value x + 1 / 2⌋₊ := by
  have hx' : (unpacked x).isFinite = true := hx
  have hparts : x.toModel.unpack = unpacked x := rfl
  rw [nearestIndex, hparts]
  rw [value] at hnonneg ⊢
  generalize unpacked x = u at hx' hnonneg ⊢
  cases u with
  | infinity s | notANumber => exact absurd hx' Bool.false_ne_true
  | zero s =>
    rw [toRat]
    norm_num
  | finite s m e hm =>
    -- below the point, a half is added before the bits there are shifted out
    have hpos : (0 : ℚ) < m * 2 ^ e := by positivity
    cases s with
    | negative =>
      rw [toRat, signed] at hnonneg
      linarith
    | positive =>
      simp only [toRat, signed]
      split
      next he =>
        obtain ⟨k, rfl⟩ := Int.eq_ofNat_of_zero_le he
        -- there is nothing below the point: the half is cut off again
        have hint : (m : ℚ) * 2 ^ (k : ℤ) = ((m * 2 ^ k : ℕ) : ℚ) := by push_cast; rfl
        rw [hint, floor_add_half, Int.toNat_natCast, Nat.shiftLeft_eq m]
        rfl
      next he =>
        obtain ⟨d, rfl⟩ : ∃ d : ℕ, e = -d := ⟨(-e).toNat, by omega⟩
        rw [neg_neg, Int.toNat_natCast, shiftRight_add_half]
        rfl

/-- Rounding keeps the order of numbers that are not negative. -/
theorem nearestIndex_mono (hx : Finite x) (hy : Finite y) (hnonneg : 0 ≤ x) (h : x ≤ y) :
    nearestIndex x ≤ nearestIndex y := by
  -- both values are not negative, so that rounding is a floor on each of them
  have hzero : Finite (0 : Float32) := rfl
  have hvalue : 0 ≤ value x := (le_iff hzero hx).mp hnonneg
  have hle : value x ≤ value y := (le_iff hx hy).mp h
  rw [nearestIndex_eq hx hvalue, nearestIndex_eq hy (hvalue.trans hle)]
  have hfloor : ⌊value x + 1 / 2⌋₊ ≤ ⌊value y + 1 / 2⌋₊ := Nat.floor_mono (by linarith)
  omega

end DynamicRange.Scalar
