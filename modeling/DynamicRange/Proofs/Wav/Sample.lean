import DynamicRange.Proofs.Scalar.Order
import DynamicRange.Proofs.Scalar.Scaling
import DynamicRange.Proofs.Scalar.Truncate
import DynamicRange.Wav.Sample

/-!
# Integer samples

A sample becomes an integer by scaling, limiting and dropping what comes after the point, and an
integer becomes a sample by a division. Up to 25 bits the scale and all integers of the depth are
numbers of single precision and so are their quotients, so that nothing is rounded: an integer comes
back as it was, and a sample is off by less than a step.

## Key results

- `encodeInteger_of_finite`: the integer of a number, on its value
- `encodeInteger_decodeInteger`, `decodeInteger_encodeInteger_lt`: there and back
- `encodeInteger_mem`, `encodeInteger_mono`: the range and the order
-/

namespace DynamicRange

open Binary

/-- A full scale of single precision: a power of two below which all integers are floats. -/
structure IsFullScale (scale : Float32) (n : ℕ) : Prop where
  finite : Finite scale
  value_eq : value scale = 2 ^ n
  le : n ≤ 24

/-- The full scale of a depth is a power of two. -/
theorem exists_scale {bits : ℕ} (hpos : 0 < bits) (hlt : bits < 64) :
    ∃ scale, fullScale? bits = some scale ∧ Finite scale ∧ value scale = 2 ^ (bits - 1) := by
  have hpow : 1 <<< (bits - 1) = 2 ^ (bits - 1) := by rw [Nat.shiftLeft_eq, one_mul]
  have hlarge : 2 ^ (bits - 1) ≤ 2 ^ 127 := Nat.pow_le_pow_right two_pos (by omega)
  -- a power of two is a float as long as its exponent is in the range
  have hrounds := ofNat_rounds hlarge
  have hnumber : IsNumber .binary32 (((2 ^ (bits - 1) : ℕ) : ℚ)) := by
    have hmin := minExponent_nonpos .binary32
    have hzpow : IsNumber .binary32 ((2 : ℚ) ^ ((bits - 1 : ℕ) : ℤ)) := isNumber_zpow (by omega)
    rw [zpow_natCast] at hzpow
    exact_mod_cast hzpow
  -- of the two conditions on the depth neither refuses it
  refine ⟨_, ?_, hrounds.finite, ?_⟩
  · rw [fullScale?, if_neg (by omega), if_neg (by omega), hpow]
  · rw [hrounds.exact hnumber]
    push_cast
    rfl

/-- Up to 25 bits no integer of the depth is rounded. -/
theorem exists_fullScale {bits : ℕ} (hpos : 0 < bits) (hle : bits ≤ 25) :
    ∃ scale, fullScale? bits = some scale ∧ IsFullScale scale (bits - 1) := by
  -- 25 bits are those of the integers up to 24 bits and their sign
  obtain ⟨scale, hscale, hfinite, hvalue⟩ := exists_scale hpos (by omega)
  exact ⟨scale, hscale, hfinite, hvalue, by omega⟩

/-- That of integers of 16 or 24 bits. -/
theorem isFullScale_of_integer {bits : ℕ} (hbits : bits = 16 ∨ bits = 24) {scale : Float32}
    (h : fullScale? bits = some scale) : IsFullScale scale (bits - 1) := by
  obtain ⟨scale', hscale', hfull⟩ : ∃ scale', fullScale? bits = some scale' ∧
      -- the scale of a depth is unique
      IsFullScale scale' (bits - 1) := exists_fullScale (by omega) (by omega)
  obtain rfl := Option.some.inj (hscale'.symm.trans h)
  exact hfull

/-- A number near an integer is a number after the division by a full scale as well. -/
theorem isNumber_nearest_div {k : ℤ} {n : ℕ} (hn : n ≤ 64) :
    IsNumber .binary32 (nearest .binary32 k / 2 ^ n) := by
  rcases eq_or_ne k 0 with rfl | hk
  · rw [Int.cast_zero, nearest_of_isNumber isNumber_zero, zero_div]
    exact isNumber_zero
  have hmin : Float.Model.Format.binary32.minExponent = -149 := rfl
  have hbits : (Float.Model.Format.binary32.mantissaBits : ℤ) = 24 := rfl
  -- the unit of an integer is not small
  have hunit : -23 ≤ unitExponent .binary32 (k : ℚ) := by
    have hlog : 0 ≤ Int.log 2 |(k : ℚ)| := by
      rw [← Int.zpow_le_iff_le_log one_lt_two (abs_pos.mpr (Int.cast_ne_zero.mpr hk))]
      exact_mod_cast Int.one_le_abs hk
    rw [unitExponent, hbits]
    omega
  refine ⟨_, unitExponent .binary32 (k : ℚ) - n, abs_roundEven_unit_le .binary32 (k : ℚ),
    by omega, ?_⟩
  -- the float nearest to an integer is a multiple of its unit, which the division only shifts
  rw [nearest, zpow_sub₀ two_ne_zero, zpow_natCast, mul_div_assoc]

/-- The sample of an integer is the float nearest to it, divided by the scale. -/
theorem decodeInteger_rounded {scale : Float32} {n : ℕ} {k : ℤ} (hscale : Finite scale)
    (hvalue : value scale = 2 ^ n) (hn : n ≤ 64) (hk : |k| ≤ 2 ^ n) :
    Finite (decodeInteger scale k) ∧
      value (decodeInteger scale k) = nearest .binary32 k / 2 ^ n := by
  have hpos : (0 : ℚ) < 2 ^ n := by positivity
  -- the integer is rounded once
  have hint := ofInt_rounds (hk.trans (pow_le_pow_right₀ one_le_two (hn.trans (by decide))))
  have hquotient : value (Float32.ofInt k) / value scale = nearest .binary32 k / 2 ^ n := by
    rw [hint.value_eq, hvalue]
  have hnumber : IsNumber .binary32 ((2 : ℚ) ^ n) := hvalue ▸ hscale.isNumber
  have hbound : |nearest .binary32 (k : ℚ) / 2 ^ n| ≤ 2 ^ (0 : ℤ) := by
    rw [zpow_zero, abs_div, abs_of_pos hpos, div_le_one hpos]
    exact abs_nearest_le hnumber (by exact_mod_cast hk)
  -- the quotient lies between -1 and 1, far from overflow
  have hrounds := div_rounds hint.finite hscale (by rw [hvalue]; exact hpos.ne')
    (by rw [hquotient]; exact nearest_lt_overflow hbound (by decide))
  rw [hquotient] at hrounds
  -- after the first rounding the quotient is a float, so that the second changes nothing
  exact ⟨hrounds.finite, hrounds.exact (isNumber_nearest_div hn)⟩

namespace IsFullScale

variable {scale x y : Float32} {n : ℕ} {k : ℤ}

/-- The ends of the range. -/
theorem limits (h : IsFullScale scale n) :
    (Finite (-scale) ∧ value (-scale) = ((-2 ^ n : ℤ) : ℚ)) ∧
      Binary.Finite (scale - 1) ∧ value (scale - 1) = ((2 ^ n - 1 : ℤ) : ℚ) := by
  have hle : (2 : ℤ) ^ n ≤ 2 ^ 24 := pow_le_pow_right₀ one_le_two h.le
  have hone : (1 : ℤ) ≤ 2 ^ n := one_le_pow₀ one_le_two
  obtain ⟨hneg, hneg'⟩ := neg_exact h.finite
  have hsub : value scale - value (1 : Float32) = ((2 ^ n - 1 : ℤ) : ℚ) := by
    rw [h.value_eq, near_one.value_eq]
    push_cast
    rfl
  -- both ends are integers below 25 bits, so both are floats
  have hnumber : IsNumber .binary32 ((2 ^ n - 1 : ℤ) : ℚ) := by
    refine isNumber_intCast ?_
    rw [abs_of_nonneg (by omega)]
    exact (sub_le_self _ zero_le_one).trans hle
  have hbound : |((2 ^ n - 1 : ℤ) : ℚ)| ≤ 2 ^ (24 : ℤ) := by
    rw [← Int.cast_abs, abs_of_nonneg (by omega)]
    exact_mod_cast (sub_le_self _ zero_le_one).trans hle
  -- the difference is exact
  have hrounds := sub_rounds h.finite near_one.finite
    (by rw [hsub]; exact nearest_lt_overflow hbound (by decide))
  rw [hsub] at hrounds
  refine ⟨⟨hneg, ?_⟩, hrounds.finite, hrounds.exact hnumber⟩
  rw [hneg', h.value_eq]
  push_cast
  rfl

/-- What is in the range is not limited any more when the point is dropped. -/
theorem truncate_of_mem (h : IsFullScale scale n) (hx : Finite x)
    (hlo : ((-2 ^ n : ℤ) : ℚ) ≤ value x) (hhi : value x ≤ ((2 ^ n - 1 : ℤ) : ℚ)) :
    Scalar.truncate (-2147483648) 2147483647 x = towardZero (value x) := by
  have hle : (2 : ℤ) ^ n ≤ 2 ^ 24 := pow_le_pow_right₀ one_le_two h.le
  -- the ends are integers, so that dropping the point does not leave the range
  have hlo' := towardZero_mono hlo
  have hhi' := towardZero_mono hhi
  rw [towardZero_intCast] at hlo' hhi'
  rw [truncate_eq hx]
  omega

/-- The lower end lies below the upper one. -/
theorem ends_le (n : ℕ) : ((-2 ^ n : ℤ) : ℚ) ≤ ((2 ^ n - 1 : ℤ) : ℚ) := by
  have hone : (1 : ℤ) ≤ 2 ^ n := one_le_pow₀ one_le_two
  exact_mod_cast (by omega : (-2 ^ n : ℤ) ≤ 2 ^ n - 1)

/-- What is scaled beyond all numbers is limited to the upper end. -/
theorem encodeInteger_of_infinity (h : IsFullScale scale n) (hx : x * scale = Scalar.infinity) :
    encodeInteger scale x = 2 ^ n - 1 := by
  obtain ⟨⟨hlo, -⟩, hhi, hhi'⟩ := h.limits
  have hle : ((-2 ^ n : ℤ) : ℚ) ≤ value (scale - 1) := (ends_le n).trans hhi'.ge
  rw [encodeInteger, hx, limit_infinity hlo hhi, h.truncate_of_mem hhi hle hhi'.le, hhi',
    towardZero_intCast]

/-- What is scaled below all numbers is limited to the lower end. -/
theorem encodeInteger_of_neg_infinity (h : IsFullScale scale n)
    (hx : x * scale = -Scalar.infinity) : encodeInteger scale x = -2 ^ n := by
  obtain ⟨⟨hlo, hlo'⟩, -⟩ := h.limits
  have hle : value (-scale) ≤ ((2 ^ n - 1 : ℤ) : ℚ) := hlo'.le.trans (ends_le n)
  rw [encodeInteger, hx, limit_neg_infinity hlo, h.truncate_of_mem hlo hlo'.ge hle, hlo',
    towardZero_intCast]

/-- The integer of a number: its product with the scale, toward zero and limited. -/
theorem encodeInteger_of_finite (h : IsFullScale scale n) (hx : Finite x) :
    encodeInteger scale x = max (-2 ^ n) (min (2 ^ n - 1) (towardZero (value x * 2 ^ n))) := by
  have hends := ends_le n
  have hone : (1 : ℤ) ≤ 2 ^ n := one_le_pow₀ one_le_two
  have hbeyond : (2 : ℤ) ^ n ≤ 2 ^ 128 := pow_le_pow_right₀ one_le_two (h.le.trans (by decide))
  rcases mul_two_pow_cases hx h.finite h.value_eq with ⟨hf, hv⟩ | ⟨heq, hge⟩ | ⟨heq, hle⟩
  -- the product is a number, which is limited and then loses what is after the point
  · obtain ⟨⟨hlo, hlo'⟩, hhi, hhi'⟩ := h.limits
    obtain ⟨hf', hv'⟩ := value_limit hlo hhi hf (by rw [hlo', hhi']; exact hends)
    rw [hlo', hhi', hv] at hv'
    rw [encodeInteger, h.truncate_of_mem hf' (by rw [hv']; exact le_max_left ..)
      (by rw [hv']; exact max_le hends (min_le_left ..)), hv', towardZero_mono.map_max,
      towardZero_mono.map_min, towardZero_intCast, towardZero_intCast]
  · -- the product lies beyond the upper end too
    have hlarge := towardZero_mono (a := ((2 ^ 128 : ℤ) : ℚ)) (b := value x * 2 ^ n)
      (by push_cast; exact hge)
    rw [towardZero_intCast] at hlarge
    rw [h.encodeInteger_of_infinity heq]
    omega
  · have hlarge := towardZero_mono (a := value x * 2 ^ n) (b := ((-2 ^ 128 : ℤ) : ℚ))
      (by push_cast; exact hle)
    rw [towardZero_intCast] at hlarge
    rw [h.encodeInteger_of_neg_infinity heq]
    omega

/-- The integers of the infinities, and of NaN. -/
theorem encodeInteger_of_not_finite (h : IsFullScale scale n) :
    encodeInteger scale Scalar.infinity = 2 ^ n - 1 ∧
      encodeInteger scale (-Scalar.infinity) = -2 ^ n ∧ encodeInteger scale Scalar.nan = 0 := by
  have hpos : 0 < value scale := by
    rw [h.value_eq]
    positivity
  refine ⟨h.encodeInteger_of_infinity (mul_of_not_finite h.finite hpos not_finite_infinity),
    h.encodeInteger_of_neg_infinity (mul_of_not_finite h.finite hpos not_finite_neg_infinity), ?_⟩
  -- NaN is not limited, and its integer is zero
  rw [encodeInteger, mul_of_not_finite h.finite hpos not_finite_nan, limit_nan]
  rfl

/-- Every float has an integer of the depth. -/
theorem encodeInteger_mem (h : IsFullScale scale n) (x : Float32) :
    -2 ^ n ≤ encodeInteger scale x ∧ encodeInteger scale x ≤ 2 ^ n - 1 := by
  have hone : (1 : ℤ) ≤ 2 ^ n := one_le_pow₀ one_le_two
  obtain ⟨hinfinity, hneg, hnan⟩ := h.encodeInteger_of_not_finite
  -- a float is finite, or one of three
  rcases finite_or_infinity_or_nan x with hx | rfl | rfl | rfl
  · rw [h.encodeInteger_of_finite hx]
    omega
  · omega
  · omega
  · omega

/-- A larger float has no smaller integer. -/
theorem encodeInteger_mono (h : IsFullScale scale n) (hle : x ≤ y) :
    encodeInteger scale x ≤ encodeInteger scale y := by
  obtain ⟨hinfinity, hneg, -⟩ := h.encodeInteger_of_not_finite
  obtain ⟨hx, hy⟩ := Scalar.not_isNaN_of_le hle
  have hmem := h.encodeInteger_mem
  -- next to an infinity only the ends of the range matter
  rcases finite_or_infinity_or_nan y with hfy | rfl | rfl | rfl
  · rcases finite_or_infinity_or_nan x with hfx | rfl | rfl | rfl
    · rw [le_iff hfx hfy] at hle
      have hscaled := towardZero_mono (mul_le_mul_of_nonneg_right hle
        (by positivity : (0 : ℚ) ≤ 2 ^ n))
      rw [h.encodeInteger_of_finite hfx, h.encodeInteger_of_finite hfy]
      omega
    · exact absurd hle (not_infinity_le hfy)
    · rw [hneg]
      exact (hmem y).1
    · exact absurd hx (by decide)
  · rw [hinfinity]
    exact (hmem x).2
  -- only the lower infinity is below the lower infinity
  · rcases finite_or_infinity_or_nan x with hfx | rfl | rfl | rfl
    · exact absurd hle (not_le_neg_infinity hfx)
    · exact absurd hle (by decide)
    · exact le_rfl
    · exact absurd hx (by decide)
  · exact absurd hy (by decide)

/-- The sample of an integer of the depth is its exact share of the scale. -/
theorem decodeInteger_spec (h : IsFullScale scale n) (hk : |k| ≤ 2 ^ n) :
    Finite (decodeInteger scale k) ∧ value (decodeInteger scale k) = k / 2 ^ n := by
  have hle : (2 : ℤ) ^ n ≤ 2 ^ 24 := pow_le_pow_right₀ one_le_two h.le
  -- up to 25 bits no integer is rounded
  have hnumber : IsNumber .binary32 k := isNumber_intCast (hk.trans hle)
  obtain ⟨hfinite, hvalue⟩ :=
    decodeInteger_rounded h.finite h.value_eq (h.le.trans (by decide)) hk
  exact ⟨hfinite, by rw [hvalue, nearest_of_isNumber hnumber]⟩

/-- An integer of the depth comes back as it was. -/
theorem encodeInteger_decodeInteger (h : IsFullScale scale n) (hlo : -2 ^ n ≤ k)
    (hhi : k ≤ 2 ^ n - 1) : encodeInteger scale (decodeInteger scale k) = k := by
  obtain ⟨hfinite, hvalue⟩ := h.decodeInteger_spec (k := k) (abs_le.mpr ⟨hlo, by omega⟩)
  -- the scale is taken off and put on again
  have hscaled : value (decodeInteger scale k) * 2 ^ n = k := by
    rw [hvalue, div_mul_cancel₀ _ (by positivity)]
  rw [h.encodeInteger_of_finite hfinite, hscaled, towardZero_intCast]
  omega

/-- A sample inside full scale comes back with an error below one step. -/
theorem decodeInteger_encodeInteger_lt (h : IsFullScale scale n) (hx : Finite x)
    (hlt : |value x| < 1) :
    Finite (decodeInteger scale (encodeInteger scale x)) ∧
      |value (decodeInteger scale (encodeInteger scale x)) - value x| < 1 / 2 ^ n := by
  have hpow : (0 : ℚ) < 2 ^ n := by positivity
  -- inside full scale nothing is limited
  have hpart : encodeInteger scale x = towardZero (value x * 2 ^ n) := by
    have hle := abs_towardZero_le (value x * 2 ^ n)
    have hscaled : |value x * 2 ^ n| < 2 ^ n := by
      rw [abs_mul, abs_of_pos hpow]
      exact mul_lt_of_lt_one_left hpow hlt
    have hinside : |towardZero (value x * 2 ^ n)| < 2 ^ n := by
      exact_mod_cast hle.trans_lt hscaled
    have hinside' := abs_lt.mp hinside
    rw [h.encodeInteger_of_finite hx]
    omega
  obtain ⟨hlo, hhi⟩ := h.encodeInteger_mem x
  obtain ⟨hfinite, hvalue⟩ :=
    h.decodeInteger_spec (k := encodeInteger scale x) (abs_le.mpr ⟨hlo, by omega⟩)
  refine ⟨hfinite, ?_⟩
  have herror : value (decodeInteger scale (encodeInteger scale x)) - value x =
      (towardZero (value x * 2 ^ n) - value x * 2 ^ n) / 2 ^ n := by
    rw [hvalue, hpart, sub_div, mul_div_cancel_right₀ _ hpow.ne']
  -- the error of an integer is below 1, and that of the sample is scaled down
  rw [herror, abs_div, abs_of_pos hpow]
  exact div_lt_div_of_pos_right (abs_towardZero_sub_lt _) hpow

end IsFullScale

end DynamicRange
