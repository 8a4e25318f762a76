import DynamicRange.Proofs.Scalar.Exponential
import DynamicRange.Proofs.Scalar.Special

/-!
# The exponential next to and below zero

An argument that is not above zero has an exponential that is not above one, and not zero as long
as it stays above the logarithm of the least number. The fraction that is computed for a reduced
argument is near the exact one only, but what reduces it further is a power of two: it is a half at
least and two at most, and a negative argument is scaled down by one bit or more. Next to zero there
is no reduction, and the square term is too small to bring the fraction above one. Above zero the
exponential of a small number is one more than the number, rounded.

## Key results

- `exp_of_nonpos`: arguments from -98 up to zero
- `exp_of_small`, `exp_mem`: arguments not far above zero
-/

namespace DynamicRange.Binary

open Scalar

variable {x y high low : Float32} {k : ℤ}

/-! ### Reduced arguments -/

/-- What the exponential of a reduced argument has beside one and the high part. -/
private def expTerm (high low : Float32) : Float32 :=
  let x := high - low
  let c := x - x * x * (1.6666625440e-1 + x * x * (-2.7667332906e-3))
  x * c / (2 - c) - low

/-- Without an exponent the fraction is not scaled. -/
private theorem expReduced_zero (high low : Float32) :
    expReduced 0 high low = 1 + (expTerm high low + high) := rfl

/-- With an exponent the fraction is scaled by its power of two. -/
private theorem expReduced_of_ne (hk : k ≠ 0) (high low : Float32) :
    expReduced k high low = scaleByTwoPow (1 + (expTerm high low + high)) k :=
  if_neg (by rwa [beq_iff_eq])

section Reduced

variable (hh : Finite high) (hl : Finite low) (hdiff : |value high - value low| ≤ 0.359)
  (hlow : |value low| ≤ 0.001)
include hh hl hdiff hlow

/-- It is small beside the reduced argument. -/
private theorem expTerm_le : |value (high - low)| ≤ 0.36 ∧ Finite (expTerm high low) ∧
    |value (expTerm high low)| ≤ |value (high - low)| / 4 + |value low| + 5e-5 := by
  have hx := (near_value hh).sub (near_value hl) hdiff (-1) (by norm_num) (by norm_num)
  have hsmall : |value (high - low)| ≤ 0.36 := (hx.abs_value_le hdiff).trans (by norm_num)
  obtain ⟨q, hq, -, hQ⟩ := near_expFraction hx.finite (hsmall.trans (by norm_num))
  have hterms : |q - value low| ≤ |value (high - low)| / 4 + |value low| :=
    (abs_sub _ _).trans (add_le_add (hQ hsmall) le_rfl)
  -- the ratio is a quarter of the argument at most, and the low part is small
  have hterms' : |q - value low| ≤ 0.091 := by
    norm_num at hsmall hlow ⊢
    linarith
  have hsum := (hq.sub (near_value hl) hterms' (-3) (by norm_num) (by norm_num)).mono
    (show _ ≤ (5e-5 : ℚ) by norm_num)
  exact ⟨hsmall, hsum.finite, hsum.abs_value_le hterms⟩

/-- The fraction is a half at least and two at most. -/
private theorem reduced_mem (hhigh : |value high| ≤ 0.36) :
    Rounds (1 + (expTerm high low + high)) (1 + value (expTerm high low + high)) ∧
      2 ^ (-1 : ℤ) ≤ value (1 + (expTerm high low + high)) ∧
        value (1 + (expTerm high low + high)) ≤ 2 ^ (1 : ℤ) := by
  obtain ⟨hsmall, hfinite, hbound⟩ := expTerm_le hh hl hdiff hlow
  -- a tenth beside the high part, which is not much more than a third
  have hbound : |value (expTerm high low)| ≤ 0.1 := by
    refine hbound.trans ?_
    norm_num at hsmall hlow ⊢
    linarith
  have hterms := abs_add_le_of_le (D := 0.46) hbound hhigh (by norm_num)
  have hsum := (near_value hfinite).add (near_value hh) hterms (-1) (by norm_num) (by norm_num)
  have hsum' := abs_le.mp ((hsum.abs_value_le hterms).trans (show _ ≤ (1 / 2 : ℚ) by norm_num))
  have hone : value (1 : Float32) = 1 := near_one.value_eq
  have hge : (2 : ℚ) ^ (-1 : ℤ) ≤ 1 + value (expTerm high low + high) := by
    norm_num
    linarith
  have hle : 1 + value (expTerm high low + high) ≤ 2 ^ (1 : ℤ) := by
    norm_num
    linarith
  have habs := abs_le.mpr ⟨(by norm_num : -(2 : ℚ) ^ (1 : ℤ) ≤ 2 ^ (-1 : ℤ)).trans hge, hle⟩
  have hrounds := add_rounds near_one.finite hsum.finite
    (hone.symm ▸ nearest_lt_overflow habs (by decide))
  rw [hone] at hrounds
  -- a half and two are numbers, so rounding does not cross them
  exact ⟨hrounds, hrounds.mem (isNumber_zpow (by decide)) (isNumber_zpow (by decide)) hge hle⟩

end Reduced

/-! ### Scaling -/

/-- A product with a power of two stays between powers of two. -/
private theorem mul_twoPow_mem {a b : ℤ} (hy : Finite y) (hge : 2 ^ a ≤ value y)
    (hle : value y ≤ 2 ^ b) (hk : -126 ≤ k ∧ k ≤ 127)
    (hm : -149 ≤ a + k ∧ a + k ≤ b + k ∧ b + k ≤ 127) :
    Finite (y * twoPow k) ∧ 2 ^ (a + k) ≤ value (y * twoPow k) ∧
      value (y * twoPow k) ≤ 2 ^ (b + k) := by
  obtain ⟨hfinite, hvalue⟩ := twoPow_spec hk.1 hk.2
  have hpos : (0 : ℚ) < 2 ^ k := zpow_pos two_pos k
  have hge' : 2 ^ (a + k) ≤ value y * value (twoPow k) := by
    rw [hvalue, zpow_add₀ two_ne_zero]
    exact mul_le_mul_of_nonneg_right hge hpos.le
  have hle' : value y * value (twoPow k) ≤ 2 ^ (b + k) := by
    rw [hvalue, zpow_add₀ two_ne_zero]
    exact mul_le_mul_of_nonneg_right hle hpos.le
  have habs : |value y * value (twoPow k)| ≤ 2 ^ (b + k) := by
    rwa [abs_of_nonneg ((zpow_pos two_pos _).le.trans hge')]
  -- the exponents stay in the format all the way
  have hmin : Float.Model.Format.binary32.minExponent = -149 := rfl
  have hmax : overflow .binary32 = 128 := rfl
  have hrounds := mul_rounds hy hfinite (abs_nearest_lt_overflow habs (by omega) (by omega))
  exact ⟨hrounds.finite,
    hrounds.mem (isNumber_zpow (by omega)) (isNumber_zpow (by omega)) hge' hle'⟩

/-- Scaled down by a bit or more, what was at most two is at most one. -/
private theorem scaleByTwoPow_mem (hy : Finite y) (hge : 2 ^ (-1 : ℤ) ≤ value y)
    (hle : value y ≤ 2 ^ (1 : ℤ)) (hk : -148 ≤ k ∧ k ≤ -1) :
    Finite (scaleByTwoPow y k) ∧ 0 < value (scaleByTwoPow y k) ∧
      value (scaleByTwoPow y k) ≤ 1 := by
  unfold scaleByTwoPow
  rw [if_neg (by omega)]
  -- a very small power is reached in two products
  split
  · obtain ⟨hfinite, hge', hle'⟩ := mul_twoPow_mem (k := -100) hy hge hle (by decide) (by decide)
    obtain ⟨hfinite', hge'', hle''⟩ :=
      mul_twoPow_mem (k := k + 100) hfinite hge' hle' (by omega) (by omega)
    exact ⟨hfinite', (zpow_pos two_pos _).trans_le hge'',
      hle''.trans (zpow_le_one_of_nonpos₀ one_le_two (by omega))⟩
  · obtain ⟨hfinite, hge', hle'⟩ := mul_twoPow_mem (k := k) hy hge hle (by omega) (by omega)
    exact ⟨hfinite, (zpow_pos two_pos _).trans_le hge',
      hle'.trans (zpow_le_one_of_nonpos₀ one_le_two (by omega))⟩

/-! ### The exponential -/

/-- Next to zero there is one addition. -/
private theorem one_add_mem (hx : Finite x) (hge : -(1 / 2) ≤ value x) (hle : value x ≤ 0) :
    Finite (1 + x) ∧ 0 < value (1 + x) ∧ value (1 + x) ≤ 1 := by
  have hone : value (1 : Float32) = 1 := near_one.value_eq
  have hsum_ge : 2 ^ (-1 : ℤ) ≤ value (1 : Float32) + value x := by
    norm_num [hone]
    linarith
  have hsum_le : value (1 : Float32) + value x ≤ 1 := by linarith
  -- the sum lies between a half and one, which are numbers of the format
  have hrounds := add_rounds near_one.finite hx
    (nearest_lt_overflow_of_unit ((zpow_pos two_pos _).le.trans hsum_ge) hsum_le)
  obtain ⟨hge', hle'⟩ := hrounds.mem (isNumber_zpow (by decide)) isNumber_one hsum_ge hsum_le
  exact ⟨hrounds.finite, (zpow_pos two_pos _).trans_le hge', hle'⟩

/-- Without a reduction the fraction of a negative argument is not above one. -/
private theorem expReduced_zero_mem (hx : Finite x) (hle : value x ≤ 0)
    (hge : 2 ^ (-13 : ℤ) ≤ |value x|) (hsmall : |value x| ≤ 0.359) :
    Finite (expReduced 0 x 0) ∧ 0 < value (expReduced 0 x 0) ∧ value (expReduced 0 x 0) ≤ 1 := by
  have hzero : value (0 : Float32) = 0 := near_zero.value_eq
  have hdiff : |value x - value (0 : Float32)| ≤ 0.359 := by rwa [hzero, sub_zero]
  have hlow : |value (0 : Float32)| ≤ 0.001 := by norm_num [hzero]
  obtain ⟨hrounds, hpos, -⟩ :=
    reduced_mem hx near_zero.finite hdiff hlow (hsmall.trans (by norm_num))
  obtain ⟨-, hterm, hbound⟩ := expTerm_le hx near_zero.finite hdiff hlow
  rw [(sub_zero_exact hx).2, hzero, abs_zero, add_zero] at hbound
  rw [expReduced_zero]
  refine ⟨hrounds.finite, (zpow_pos two_pos _).trans_le hpos, ?_⟩
  -- the argument outweighs what is added to it
  have habs := abs_of_nonpos hle
  have hterm_le := abs_le.mp hbound
  have hsum_le : value (expTerm x 0) + value x ≤ 0 := by
    norm_num at hge
    linarith
  have hsum_abs : |value (expTerm x 0) + value x| ≤ 2 ^ (0 : ℤ) := by
    refine abs_le.mpr ⟨?_, hsum_le.trans (by norm_num)⟩
    norm_num at hsmall ⊢
    linarith
  have hsum := add_rounds hterm hx (nearest_lt_overflow hsum_abs (by decide))
  have hnonpos : value (expTerm x 0 + x) ≤ 0 :=
    hsum.value_eq.trans_le (nearest_le isNumber_zero hsum_le)
  exact hrounds.value_eq.trans_le (nearest_le isNumber_one (by linarith))

/-- With a reduction by a negative multiple. -/
private theorem expReduced_neg_mem (hx : Finite x) (hk : -148 ≤ k ∧ k ≤ -1)
    (hnear : |value x - k * (22713 / 32768)| ≤ 0.3585) :
    let y := expReduced k (x - .ofInt k * reductionHigh) (.ofInt k * reductionLow)
    Finite y ∧ 0 < value y ∧ value y ≤ 1 := by
  intro y
  have hk' : |k| ≤ 151 := abs_le.mpr ⟨by omega, by omega⟩
  obtain ⟨hhigh, hlow, hlow'⟩ :=
    near_reduction hx (by exact_mod_cast hk') (hnear.trans (by norm_num))
  have hhigh_le := hhigh.abs_value_le hnear
  have hlow_le := hlow.abs_value_le hlow'
  -- the reduced argument is not above 0.359, as the fraction needs it
  have hdiff := (abs_sub _ _).trans (add_le_add hhigh_le hlow_le)
  obtain ⟨hrounds, hge, hle⟩ := reduced_mem hhigh.finite hlow.finite (hdiff.trans (by norm_num))
    (hlow_le.trans (by norm_num)) (hhigh_le.trans (by norm_num))
  show Finite (expReduced k _ _) ∧ 0 < value (expReduced k _ _) ∧ value (expReduced k _ _) ≤ 1
  rw [expReduced_of_ne (by omega)]
  exact scaleByTwoPow_mem hrounds.finite hge hle hk

/-- The multiple that is taken for an argument below the first step. -/
private theorem multiple_neg (hx : Finite x) (hge : -98 ≤ value x) (hle : value x ≤ -1.03)
    (hk : k = truncate (-2147483648) 2147483647 (reciprocalLogTwo * x + -0.5)) :
    (-148 ≤ k ∧ k ≤ -1) ∧ |value x - k * (22713 / 32768)| ≤ 0.3585 := by
  have habs : |value x| ≤ 104 := abs_le.mpr ⟨by linarith, by linarith⟩
  obtain ⟨hsum, hS⟩ := near_quotient hx habs near_neg_half (by norm_num [abs_of_pos])
  obtain ⟨htoward, hclose⟩ :=
    truncate_spec hsum.finite ((hsum.abs_value_le hS).trans (by norm_num))
  rw [← hk] at htoward hclose
  have herror := abs_le.mp hsum.error
  have hclose := abs_le.mp hclose
  generalize value (reciprocalLogTwo * x + -0.5) = q at htoward hclose herror
  norm_num at herror hle
  -- toward zero, so the multiple is between the quotient and one more
  -- the quotient is negative, so its integer part is above it
  have hq : q < 0 := by linarith
  rw [abs_of_neg hq] at htoward
  have hk_ge := (abs_le.mp htoward).1
  have hlow : (-148 : ℚ) ≤ k := by linarith
  have hhigh : (k : ℚ) < 0 := by linarith
  have hlow' : -148 ≤ k := by exact_mod_cast hlow
  have hhigh' : k < 0 := by exact_mod_cast hhigh
  refine ⟨⟨hlow', by omega⟩, abs_le.mpr ⟨?_, ?_⟩⟩
  · norm_num
    linarith
  · norm_num
    linarith

/-- One step is near enough up to one and a half times the logarithm of two below zero. -/
private theorem step_neg (hge : -1.04 ≤ value x) (hle : value x ≤ -0.3465) :
    |value x - (-1 : ℤ) * (22713 / 32768)| ≤ 0.3585 := by
  norm_num at hge hle
  refine abs_le.mpr ⟨?_, ?_⟩ <;> norm_num <;> linarith

/-- From -98 up to zero the exponential is above zero and not above one. -/
theorem exp_of_nonpos (hx : Finite x) (hge : -98 ≤ value x) (hle : value x ≤ 0) :
    Finite (exp x) ∧ 0 < value (exp x) ∧ value (exp x) ≤ 1 := by
  have habs := abs_of_nonpos hle
  have hcase := expCase hx
  generalize exp x = y at hcase ⊢
  cases hcase with
  | overflow hlow => linarith
  | underflow hhigh => linarith
  | nearest hsign hlow _ hk =>
    -- the argument is negative, so the half that is added has the other sign
    rw [habs] at hlow
    have hlow := le_neg_of_le_neg hlow
    rcases hsign with ⟨hpos, -⟩ | ⟨-, rfl⟩
    · norm_num at hlow
      linarith
    · obtain ⟨hk, hnear⟩ := multiple_neg hx hge hlow hk
      exact expReduced_neg_mem hx hk hnear
  | step hsign hlow hhigh =>
    rw [habs] at hlow hhigh
    have hlow := le_neg_of_le_neg hlow
    rcases hsign with ⟨hpos, -⟩ | ⟨-, rfl⟩
    · norm_num at hlow
      linarith
    · exact expReduced_neg_mem hx (by decide) (step_neg (neg_le.mp hhigh) hlow)
  | fraction hlow hhigh => exact expReduced_zero_mem hx hle hlow.le hhigh
  | sum hhigh =>
    have hge := (abs_le.mp (hhigh.trans (show _ ≤ (1 / 2 : ℚ) by norm_num))).1
    exact one_add_mem hx hge hle

/-- The exponential of a small number that is not below zero. -/
theorem exp_of_small (hx : Finite x) (hge : 0 ≤ value x) (hle : value x ≤ 2 ^ (-13 : ℤ)) :
    exp x = 1 + x := by
  have hcase := expCase hx
  have habs : |value x| ≤ 2 ^ (-13 : ℤ) := by rwa [abs_of_nonneg hge]
  generalize exp x = y at hcase ⊢
  -- only one of the cases is left for an argument of that size
  norm_num at hle habs
  cases hcase with
  | overflow hlow => linarith
  | underflow hhigh => linarith
  | nearest _ hlow => exact absurd (hlow.trans habs) (by norm_num)
  | step _ hlow => exact absurd (hlow.trans habs) (by norm_num)
  | fraction hlow => exact absurd (hlow.trans_le habs) (by norm_num)
  | sum => rfl

/-- The exponential of what is above zero by no more than a small power of two. -/
theorem exp_mem (hx : Finite x) (hge : -98 ≤ value x) (hle : value x ≤ 2 ^ (-17 : ℤ)) :
    Finite (exp x) ∧ 0 < value (exp x) ∧ value (exp x) ≤ 1 + 2 ^ (-17 : ℤ) := by
  -- below zero the bound is one; above, one sum gives it
  rcases le_total (value x) 0 with hneg | hpos
  · obtain ⟨hfinite, hexp, hexp'⟩ := exp_of_nonpos hx hge hneg
    exact ⟨hfinite, hexp, hexp'.trans (by norm_num)⟩
  · rw [exp_of_small hx hpos (hle.trans (by norm_num))]
    have hone : value (1 : Float32) = 1 := near_one.value_eq
    have hsum_ge : 1 ≤ value (1 : Float32) + value x := by linarith
    have hsum_le : value (1 : Float32) + value x ≤ 1 + 2 ^ (-17 : ℤ) := by linarith
    have hnumber : IsNumber .binary32 (1 + 2 ^ (-17 : ℤ)) :=
      ⟨2 ^ 17 + 1, -17, by decide, by decide, by norm_num⟩
    -- the bound is a number of the format, so rounding does not cross it
    have habs : |value (1 : Float32) + value x| ≤ 2 ^ (1 : ℤ) :=
      abs_le.mpr ⟨le_trans (by norm_num) hsum_ge, hsum_le.trans (by norm_num)⟩
    have hrounds := add_rounds near_one.finite hx (nearest_lt_overflow habs (by decide))
    obtain ⟨hge', hle'⟩ := hrounds.mem isNumber_one hnumber hsum_ge hsum_le
    exact ⟨hrounds.finite, one_pos.trans_le hge', hle'⟩

end DynamicRange.Binary
