import DynamicRange.Proofs.Scalar.Unpacked

/-!
# Floats in their bits

A float is kept in bits and taken apart for each operation. What an operation gives is put together
without loss as long as it is small enough for the largest exponent; otherwise an infinity is kept.

## Key results

- `isCanonical_unpack`: what bits stand for has the form that the format keeps
- `unpack_pack`: a number of that form below the largest power of two is kept as it is
- `unpack_pack_unpack`, `unpack_pack_neg`: what is kept once, and with the other sign
-/

namespace DynamicRange.Binary

open Float.Model (UnpackedFloat)
open Float.Model.UnpackedFloat

variable {f : Float.Model.Format} {s : Sign} {m : ℕ} {e : ℤ} {u : UnpackedFloat}

/-- A number of the format is below the power of two, and its exponent tells. -/
theorem Canonical.lt_iff (h : Canonical f m e) (hf : 2 ≤ f.exponentBits) :
    (m : ℚ) * 2 ^ e < 2 ^ overflow f ↔ e + f.mantissaBits ≤ overflow f := by
  constructor
  · intro hlt
    -- too large an exponent: the mantissa is then a full one, and the value too large as well
    by_contra! hgt
    have hone := one_lt_overflow hf
    have hmin := minExponent_eq f
    have hbits := mantissaBits_eq f
    have hm : 2 ^ f.mantissaBitsWithoutImplicit ≤ m := h.normal.resolve_right (by omega)
    have hm' : (2 : ℚ) ^ (f.mantissaBitsWithoutImplicit : ℤ) ≤ m := by
      rw [zpow_natCast]
      exact_mod_cast hm
    have hge : (2 : ℚ) ^ overflow f ≤ m * 2 ^ e := by
      calc (2 : ℚ) ^ overflow f ≤ 2 ^ (f.mantissaBitsWithoutImplicit + e : ℤ) :=
            zpow_le_zpow_right₀ one_le_two (by omega)
        _ = 2 ^ (f.mantissaBitsWithoutImplicit : ℤ) * 2 ^ e := zpow_add₀ two_ne_zero ..
        _ ≤ m * 2 ^ e := by gcongr
    exact hge.not_gt hlt
  -- the mantissa is below its power of two, whatever the exponent
  · intro hle
    have hm : (m : ℚ) < 2 ^ (f.mantissaBits : ℤ) := by
      rw [zpow_natCast]
      exact_mod_cast h.lt
    calc (m : ℚ) * 2 ^ e < 2 ^ (f.mantissaBits : ℤ) * 2 ^ e :=
          mul_lt_mul_of_pos_right hm (zpow_pos two_pos e)
      _ = 2 ^ (f.mantissaBits + e : ℤ) := (zpow_add₀ two_ne_zero ..).symm
      _ ≤ 2 ^ overflow f := zpow_le_zpow_right₀ one_le_two (by omega)

/-- What is small enough for the format is kept as it is. -/
theorem unpack_pack (hf : 2 ≤ f.exponentBits) (h : IsCanonical f u)
    (hlt : |toRat u| < 2 ^ overflow f) : unpack f (pack f u) = u := by
  cases u with
  | finite s m e hm =>
    have hpos : (0 : ℚ) ≤ m * 2 ^ e := by positivity
    rw [toRat, abs_signed, abs_of_nonneg hpos, Canonical.lt_iff h hf] at hlt
    exact Canonical.unpack_pack h hf hlt
  | zero s => exact unpack_packedZero
  | infinity s | notANumber => exact h.elim

/-- What bits stand for has the form that the format keeps, and is small enough for it. -/
theorem isCanonical_unpack {b : BitVec f.numBits} (hf : 2 ≤ f.exponentBits)
    (h : (unpack f b).isFinite = true) :
    IsCanonical f (unpack f b) ∧ |toRat (unpack f b)| < 2 ^ overflow f := by
  cases hu : unpack f b with
  | finite s m e hm =>
    obtain ⟨hcanonical, hle⟩ := canonical_of_unpack hf hu
    refine ⟨hcanonical, ?_⟩
    have hpos : (0 : ℚ) ≤ m * 2 ^ e := by positivity
    rw [toRat, abs_signed, abs_of_nonneg hpos]
    exact (hcanonical.lt_iff hf).mpr hle
  | zero s =>
    refine ⟨trivial, ?_⟩
    rw [toRat, abs_zero]
    positivity
  | infinity s | notANumber =>
    rw [hu] at h
    exact absurd h Bool.false_ne_true

/-! ### What is kept -/

/-- An infinity is kept with its sign. -/
theorem unpack_packedInfinity (s : Sign) : unpack f (packedInfinity f s) = .infinity s := by
  rw [unpack, packedInfinity]
  simp only [unpackMantissa_packComponents, unpackExponent_packComponents,
    unpackSign_packComponents, Sign.ofBitVec_toBitVec]
  rw [if_pos trivial]
  exact if_pos rfl

/-- What is not finite is kept as it is. -/
theorem unpack_pack_of_not_isFinite (h : u.isFinite = false) : unpack f (pack f u) = u := by
  cases u with
  | infinity s => exact unpack_packedInfinity s
  | notANumber => exact unpack_packedNaN
  | zero s | finite s m e hm => exact absurd h.symm Bool.false_ne_true

/-- What has been kept once is kept as it is. -/
theorem unpack_pack_unpack (hf : 2 ≤ f.exponentBits) (b : BitVec f.numBits) :
    unpack f (pack f (unpack f b)) = unpack f b := by
  cases hfinite : (unpack f b).isFinite with
  | true =>
    obtain ⟨hcanonical, hlt⟩ := isCanonical_unpack hf hfinite
    exact unpack_pack hf hcanonical hlt
  | false => exact unpack_pack_of_not_isFinite hfinite

/-- The sign is a field of its own: another sign gives the negative of what the other fields give.
-/
theorem unpack_packComponents_neg (s : Sign) (exponent : BitVec f.exponentBits)
    (mantissa : BitVec f.mantissaBitsWithoutImplicit) :
    unpack f (packComponents f (-s) exponent mantissa) =
      (unpack f (packComponents f s exponent mantissa)).neg := by
  rw [unpack, unpack]
  simp only [unpackMantissa_packComponents, unpackExponent_packComponents,
    unpackSign_packComponents, Sign.ofBitVec_toBitVec]
  -- the other fields decide between infinity, NaN, zero and a number, and not the sign
  split
  · split <;> rfl
  · split
    · split <;> rfl
    · rfl

/-- What is kept of a negative is the negative of what is kept. -/
theorem unpack_pack_neg (u : UnpackedFloat) :
    unpack f (pack f u.neg) = (unpack f (pack f u)).neg := by
  cases u with
  | notANumber =>
    have hnan : unpack f (pack f .notANumber) = .notANumber := unpack_packedNaN
    rw [UnpackedFloat.neg, hnan, UnpackedFloat.neg]
  | infinity s => exact unpack_packComponents_neg ..
  | zero s => exact unpack_packComponents_neg ..
  | finite s m e hm =>
    -- a number that is too large is kept as an infinity, one below the normal ones with its own
    -- exponent
    rw [UnpackedFloat.neg, pack, pack]
    split
    · exact unpack_packComponents_neg ..
    · split <;> exact unpack_packComponents_neg ..

end DynamicRange.Binary
