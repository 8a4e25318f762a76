import DynamicRange.Proofs.Scalar.Single

/-!
# Integer parts

The integer part of a float is that of its value: what comes after the point is dropped, which moves
a number toward zero by less than one.

## Key results

- `towardZero_mono`, `abs_towardZero_sub_lt`: the integer part of a rational number
- `truncate_eq`: the integer part of a float
-/

namespace DynamicRange.Binary

open Float.Model (UnpackedFloat)
open Float.Model.UnpackedFloat

/-! ### Rational numbers -/

/-- The integer part, toward zero. -/
def towardZero (q : ℚ) : ℤ := if 0 ≤ q then ⌊q⌋ else ⌈q⌉

/-- The integer part of what is not negative is its floor. -/
theorem towardZero_of_nonneg {q : ℚ} (h : 0 ≤ q) : towardZero q = ⌊q⌋ := if_pos h

/-- An integer is its own integer part. -/
theorem towardZero_intCast (n : ℤ) : towardZero n = n := by
  rw [towardZero, Int.floor_intCast, Int.ceil_intCast, ite_self]

/-- The integer part goes along with a change of the sign. -/
theorem towardZero_neg (q : ℚ) : towardZero (-q) = -towardZero q := by
  -- floor and ceiling trade places
  rcases lt_trichotomy q 0 with hneg | rfl | hpos
  · rw [towardZero, towardZero, if_pos (by linarith), if_neg (by linarith), Int.floor_neg]
  · rfl
  · rw [towardZero, towardZero, if_neg (by linarith), if_pos hpos.le, Int.ceil_neg]

/-- The integer part keeps the order. -/
theorem towardZero_mono : Monotone towardZero := by
  intro p q h
  unfold towardZero
  split <;> split
  · exact Int.floor_mono h
  -- a number that is not negative is not below one that is
  · linarith
  next hp hq =>
    -- zero lies between
    have hp' : ⌈p⌉ ≤ 0 := Int.ceil_le.mpr (by exact_mod_cast (not_le.mp hp).le)
    exact hp'.trans (Int.floor_nonneg.mpr hq)
  · exact Int.ceil_mono h

/-- The integer part is not farther from zero than the number. -/
theorem abs_towardZero_le (q : ℚ) : |(towardZero q : ℚ)| ≤ |q| := by
  -- by symmetry the number is not negative, and its integer part is a floor
  wlog hq : 0 ≤ q generalizing q
  · have hneg := this (-q) (by linarith)
    rwa [towardZero_neg, Int.cast_neg, abs_neg, abs_neg] at hneg
  have hfloor : (0 : ℚ) ≤ ⌊q⌋ := by exact_mod_cast Int.floor_nonneg.mpr hq
  rw [towardZero_of_nonneg hq, abs_of_nonneg hfloor, abs_of_nonneg hq]
  exact Int.floor_le q

/-- The integer part is less than one away from the number. -/
theorem abs_towardZero_sub_lt (q : ℚ) : |(towardZero q : ℚ) - q| < 1 := by
  -- as above, only the floor is left to look at
  wlog hq : 0 ≤ q generalizing q
  · have hneg := this (-q) (by linarith)
    rwa [towardZero_neg, Int.cast_neg, ← neg_sub_neg, neg_neg, neg_neg, abs_sub_comm] at hneg
  have hle := Int.floor_le q
  have hlt := Int.lt_floor_add_one q
  rw [towardZero_of_nonneg hq, abs_lt]
  constructor <;> linarith

/-! ### Floats -/

variable {x : Float32}

/-- The model's reading of a mantissa and an exponent as an integer is the integer part of the
value. -/
private theorem roundToInt_eq (s : Sign) (m : ℕ) (e : ℤ) :
    roundToInt s m e = towardZero (signed s (m * 2 ^ e)) := by
  obtain ⟨hvalue, hexponent⟩ := decreaseExponent_eq m e 0
  -- the bits after the point are dropped
  obtain ⟨n, hn⟩ : ∃ n : ℕ, (0 - (decreaseExponent m e 0).2).toNat = n := ⟨_, rfl⟩
  have hshift : (decreaseExponent m e 0).2 = -n := by omega
  -- the mantissa before the shift is exact; after it, what is left is the floor
  have hrepresents := (Single.represents_exact (decreaseExponent m e 0).1).shiftRight n
  have hexact : ((decreaseExponent m e 0).1 : ℚ) / 2 ^ n = m * 2 ^ e := by
    rw [← hvalue, hshift, zpow_neg, zpow_natCast, div_eq_mul_inv]
  rw [hexact] at hrepresents
  obtain ⟨hle, hlt⟩ := hrepresents.floor
  unfold roundToInt shiftToExponent
  simp only [hn]
  generalize
    (ExtendedMantissa.ofMantissaAndAccuracy (decreaseExponent m e 0).1 .exact >>> n).mantissa = t
    at hle hlt
  have hfloor : towardZero (m * 2 ^ e) = t := by
    rw [towardZero_of_nonneg (by positivity), Int.floor_eq_iff]
    exact ⟨by exact_mod_cast hle, by exact_mod_cast hlt⟩
  -- the sign is put on last
  cases s with
  | positive => exact hfloor.symm
  | negative =>
    rw [signed, towardZero_neg, hfloor]
    rfl

/-- The integer part of a number, limited. -/
theorem truncate_eq (hx : Finite x) (lo hi : ℤ) :
    Scalar.truncate lo hi x = max lo (min hi (towardZero (value x))) := by
  have hpart : UnpackedFloat.toInt lo hi (unpacked x) = towardZero (value x) := by
    have hx' : (unpacked x).isFinite = true := hx
    rw [value]
    generalize unpacked x = u at hx'
    cases u with
    -- infinities and NaN are no numbers; zero is read as zero
    | infinity s | notANumber => exact absurd hx' Bool.false_ne_true
    | zero s => exact (towardZero_intCast 0).symm
    | finite s m e hm => exact roundToInt_eq s m e
  rw [← hpart]
  rfl

/-- The integer part of a number that is not too large. -/
theorem truncate_spec (hx : Finite x) (h : |value x| ≤ 2 ^ 30) :
    |(Scalar.truncate (-2147483648) 2147483647 x : ℚ)| ≤ |value x| ∧
      |(Scalar.truncate (-2147483648) 2147483647 x : ℚ) - value x| ≤ 1 := by
  have hle := abs_towardZero_le (value x)
  have hbound : |towardZero (value x)| ≤ 2 ^ 30 := by exact_mod_cast hle.trans h
  -- limits of 32 bits are out of reach
  have hbound' := abs_le.mp hbound
  have heq : Scalar.truncate (-2147483648) 2147483647 x = towardZero (value x) := by
    rw [truncate_eq hx]
    omega
  rw [heq]
  exact ⟨hle, (abs_towardZero_sub_lt _).le⟩

end DynamicRange.Binary
