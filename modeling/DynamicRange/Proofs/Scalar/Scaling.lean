import DynamicRange.Proofs.Scalar.Special

/-!
# Numbers at a full scale

A product with a power of two is exact, and one that is too large is the infinity of its sign. So a
float that is scaled by a power of two and then limited is the exact product, limited. Infinities
are limited as numbers beyond all others, and a NaN stays.

## Key results

- `mul_cases`, `mul_two_pow_cases`: products, also too large ones
- `abs_mul_le`: a greater factor
- `value_limit`, `limit_infinity`, `limit_neg_infinity`, `limit_nan`: limiting
-/

namespace DynamicRange.Binary

open Float.Model (UnpackedFloat)
open Float.Model.UnpackedFloat

variable {x y lo hi : Float32} {n : ℕ}

/-! ### Products -/

/-- A product is rounded, and is an infinity of its sign if it is too large. -/
theorem mul_cases (hx : Finite x) (hy : Finite y) :
    Rounds (x * y) (value x * value y) ∨
      (x * y = Scalar.infinity ∧ 2 ^ 128 ≤ nearest .binary32 (value x * value y)) ∨
      (x * y = -Scalar.infinity ∧ nearest .binary32 (value x * value y) ≤ -2 ^ 128) := by
  obtain ⟨hcanonical, hround⟩ := mul_spec hx.isCanonical hy.isCanonical
  by_cases hlt : |nearest .binary32 (value x * value y)| < 2 ^ overflow .binary32
  · exact .inl (mul_rounds hx hy hlt)
  · right
    have hproduct : toRat (mul .binary32 (unpacked x) (unpacked y)) =
      nearest .binary32 (value x * value y) := hround
    have hmul : unpacked (x * y) = unpack .binary32 (pack .binary32
      (mul .binary32 (unpacked x) (unpacked y))) := Packed.unpack_mul x y
    -- what is rounded is canonical, so only packing can overflow
    rw [← hproduct] at hlt ⊢
    cases hu : mul .binary32 (unpacked x) (unpacked y) with
    | infinity s | notANumber =>
      rw [hu] at hcanonical
      exact hcanonical.elim
    | zero s =>
      rw [hu, toRat, abs_zero] at hlt
      exact absurd (zpow_pos two_pos _) hlt
    | finite s m e hm =>
      rw [hu] at hcanonical hlt hmul
      have hpos : (0 : ℚ) ≤ m * 2 ^ e := by positivity
      rw [toRat, abs_signed, abs_of_nonneg hpos, not_lt] at hlt
      rw [unpack_pack_of_overflow (by decide) hcanonical hlt] at hmul
      cases s with
      | positive => exact .inl ⟨eq_of_unpacked_eq hmul, hlt⟩
      | negative => exact .inr ⟨eq_of_unpacked_eq hmul, neg_le_neg hlt⟩

/-- The product with a power of two is exact, unless it is too large. -/
theorem mul_two_pow_cases (hx : Finite x) (hy : Finite y) (hvalue : value y = 2 ^ n) :
    (Finite (x * y) ∧ value (x * y) = value x * 2 ^ n) ∨
      (x * y = Scalar.infinity ∧ 2 ^ 128 ≤ value x * 2 ^ n) ∨
      (x * y = -Scalar.infinity ∧ value x * 2 ^ n ≤ -2 ^ 128) := by
  -- the scaled value is a number of the format but for its size
  have hnumber : IsNumber .binary32 (value x * 2 ^ n) := by
    obtain ⟨m, e, hm, he, hv⟩ := hx.isNumber
    refine ⟨m, e + n, hm, by omega, ?_⟩
    rw [hv, mul_assoc, zpow_add₀ two_ne_zero, zpow_natCast]
  have hcases := mul_cases hx hy
  rw [hvalue, nearest_of_isNumber hnumber] at hcases
  exact hcases.imp_left fun hrounds => ⟨hrounds.finite, hrounds.exact hnumber⟩

/-- A product of numbers is not NaN. -/
theorem isNaN_mul (hx : Finite x) (hy : Finite y) : (x * y).isNaN = false := by
  rcases mul_cases hx hy with hrounds | ⟨heq, -⟩ | ⟨heq, -⟩
  · exact hrounds.finite.isNaN_eq_false
  · rw [heq]
    rfl
  · rw [heq]
    rfl

/-- The magnitude of either infinity is the positive one. -/
private theorem abs_infinity_le :
    Scalar.infinity.abs ≤ Scalar.infinity ∧ (-Scalar.infinity).abs ≤ Scalar.infinity := by
  decide

/-- A magnitude grows with the factor, also when it overflows. -/
theorem abs_mul_le {g h : Float32} (hx : Finite x) (hg : Finite g) (hh : Finite h)
    (hnonneg : 0 ≤ value g) (hle : value g ≤ value h) : (x * g).abs ≤ x.abs * h := by
  obtain ⟨habs, hvalue⟩ := abs_exact hx
  have hexact : |value x * value g| ≤ value x.abs * value h := by
    rw [hvalue, abs_mul, abs_of_nonneg hnonneg]
    exact mul_le_mul_of_nonneg_left hle (abs_nonneg _)
  have hrounded := abs_nearest_mono (f := .binary32) hexact
  rcases mul_cases habs hh with hrounds | ⟨heq, -⟩ | ⟨-, hlow⟩
  · -- the lesser product does not overflow either
    rw [← hrounds.value_eq] at hrounded
    have hproduct := mul_rounds hx hg
      (hrounded.trans_lt ((le_abs_self _).trans_lt hrounds.finite.abs_value_lt))
    obtain ⟨hmagnitude, hmagnitude'⟩ := abs_exact hproduct.finite
    rwa [le_iff hmagnitude hrounds.finite, hmagnitude', hproduct.value_eq]
  -- the greater magnitude is infinity, and nothing is above it
  · rw [heq]
    rcases mul_cases hx hg with hrounds | ⟨heq', -⟩ | ⟨heq', -⟩
    · exact le_infinity (abs_exact hrounds.finite).1
    · exact heq' ▸ abs_infinity_le.1
    · exact heq' ▸ abs_infinity_le.2
  -- a product of magnitudes does not overflow downward
  · have hnonneg := (abs_nonneg _).trans hrounded
    norm_num at hlow
    linarith

/-! ### Limiting -/

/-- Infinity is limited to the upper end. -/
theorem limit_infinity (hlo : Finite lo) (hhi : Finite hi) :
    Scalar.limit lo hi Scalar.infinity = hi := by
  rw [Scalar.limit, if_neg (not_infinity_lt hlo), if_pos (lt_infinity hhi)]

/-- The negative infinity is limited to the lower end. -/
theorem limit_neg_infinity (hlo : Finite lo) : Scalar.limit lo hi (-Scalar.infinity) = lo :=
  if_pos (neg_infinity_lt hlo)

/-- NaN is not limited. -/
theorem limit_nan (lo hi : Float32) : Scalar.limit lo hi Scalar.nan = Scalar.nan := by
  rw [Scalar.limit, if_neg (not_nan_lt lo), if_neg (not_lt_nan hi)]

/-- A number is limited to the value in the middle of the three. -/
theorem value_limit (hlo : Finite lo) (hhi : Finite hi) (hx : Finite x)
    (hle : value lo ≤ value hi) :
    Finite (Scalar.limit lo hi x) ∧
      value (Scalar.limit lo hi x) = max (value lo) (min (value hi) (value x)) := by
  rw [Scalar.limit]
  split
  next hlt =>
    rw [lt_iff hx hlo] at hlt
    exact ⟨hlo, by rw [min_eq_right (by linarith), max_eq_left hlt.le]⟩
  next hge =>
    rw [lt_iff hx hlo, not_lt] at hge
    split
    next hlt =>
      rw [lt_iff hhi hx] at hlt
      exact ⟨hhi, by rw [min_eq_left hlt.le, max_eq_right hle]⟩
    next hge' =>
      rw [lt_iff hhi hx, not_lt] at hge'
      exact ⟨hx, by rw [min_eq_right hge', max_eq_right hge]⟩

end DynamicRange.Binary
