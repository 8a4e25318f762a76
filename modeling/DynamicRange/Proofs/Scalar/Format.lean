import Mathlib

/-!
# The form in which a format keeps numbers

A float is kept in the bits of a sign, an exponent and a fraction, and taken apart into a sign, a
mantissa and an exponent. A mantissa has all its bits, of which the first is not kept, or the
exponent is the least one. In this form nothing is lost either way.

## Key results

- `Canonical`, `canonical_of_unpack`: the form of what has been kept
- `Canonical.unpack_pack`: what has this form is kept as it is
-/

namespace DynamicRange.Binary

open Float.Model (UnpackedFloat)
open Float.Model.UnpackedFloat

variable {f : Float.Model.Format} {s : Sign} {m : ℕ} {e : ℤ}

/-- A mantissa and an exponent as the format keeps them: as many bits as there are, or fewer at the
least exponent. -/
structure Canonical (f : Float.Model.Format) (m : ℕ) (e : ℤ) : Prop where
  pos : 0 < m
  lt : m < 2 ^ f.mantissaBits
  ge : f.minExponent ≤ e
  normal : 2 ^ f.mantissaBitsWithoutImplicit ≤ m ∨ e = f.minExponent

/-! ### Exponents -/

/-- A mantissa has one bit more than are kept of it. -/
theorem mantissaBits_eq (f : Float.Model.Format) :
    f.mantissaBits = f.mantissaBitsWithoutImplicit + 1 :=
  Nat.add_comm ..

/-- The exponent of the power of two that the numbers of a format stay below. -/
def overflow (f : Float.Model.Format) : ℤ := 2 ^ (f.exponentBits - 1)

/-- A format with two bits of exponent overflows above two. -/
theorem one_lt_overflow (hf : 2 ≤ f.exponentBits) : 1 < overflow f :=
  one_lt_pow₀ one_lt_two (by omega)

/-- The least exponent of a format, from where it overflows. -/
theorem minExponent_eq (f : Float.Model.Format) :
    f.minExponent = 2 - overflow f - f.mantissaBitsWithoutImplicit := by
  rw [Float.Model.Format.minExponent, mantissaBits_eq, overflow]
  push_cast
  ring

/-- The bias of the exponents of a format, from where it overflows. -/
theorem exponentBias_eq (f : Float.Model.Format) : (f.exponentBias : ℤ) = overflow f - 1 := by
  have hpos : 1 ≤ 2 ^ (f.exponentBits - 1) := Nat.one_le_two_pow
  rw [Float.Model.Format.exponentBias, overflow, Nat.cast_sub hpos]
  push_cast
  rfl

/-- The exponent field counts up to twice the exponent at which the format overflows. -/
theorem two_pow_exponentBits (f : Float.Model.Format) :
    ((2 ^ f.exponentBits : ℕ) : ℤ) = 2 * overflow f := by
  have hpos := f.he
  obtain ⟨k, hk⟩ : ∃ k, f.exponentBits = k + 1 := ⟨f.exponentBits - 1, by omega⟩
  rw [overflow, hk, Nat.add_sub_cancel, pow_succ]
  push_cast
  ring

/-! ### Packing and unpacking -/

/-- A one before the bits of a fraction adds the power of two of their number. -/
theorem toNat_one_append {k : ℕ} (fraction : BitVec k) :
    (1#1 ++ fraction).toNat = 2 ^ k + fraction.toNat := by
  rw [BitVec.toNat_append, ← Nat.shiftLeft_add_eq_or_of_lt fraction.isLt]
  simp [Nat.shiftLeft_eq]

/-- Bits that are those of a number, by what is kept in them. -/
theorem canonical_of_unpack {b : BitVec f.numBits} {hm : 0 < m} (hf : 2 ≤ f.exponentBits)
    (h : unpack f b = .finite s m e hm) : Canonical f m e ∧ e + f.mantissaBits ≤ overflow f := by
  have hfraction := (unpackMantissa b).isLt
  have hexponent := (unpackExponent b).isLt
  have hbias := exponentBias_eq f
  have hmin := minExponent_eq f
  have hbits := mantissaBits_eq f
  have hone := one_lt_overflow hf
  have hwidth := two_pow_exponentBits f
  have hpow : 2 ^ f.mantissaBits = 2 * 2 ^ f.mantissaBitsWithoutImplicit := by
    rw [hbits, pow_succ, Nat.mul_comm]
  rw [unpack] at h
  split at h
  · -- an exponent of ones: an infinity or a NaN
    split at h <;> exact nomatch h
  next htop =>
    split at h
    next hleast =>
      -- an exponent of zeros: the fraction is the mantissa
      have hzero : (unpackExponent b).toNat = 0 := by rw [hleast]; rfl
      split at h
      · exact nomatch h
      · obtain ⟨-, rfl, rfl⟩ := UnpackedFloat.finite.inj h
        exact ⟨⟨hm, by omega, by omega, .inr (by omega)⟩, by omega⟩
    next hleast =>
      -- any other exponent: the mantissa has one more bit than the fraction
      have hne : (unpackExponent b).toNat ≠ 0 := fun heq =>
        hleast (BitVec.toNat_inj.mp (by simpa using heq))
      have hne' : (unpackExponent b).toNat ≠ 2 ^ f.exponentBits - 1 := fun heq =>
        htop (BitVec.toNat_inj.mp (by
          rw [heq, BitVec.neg_one_eq_allOnes, BitVec.toNat_allOnes]))
      obtain ⟨-, rfl, rfl⟩ := UnpackedFloat.finite.inj h
      have happend := toNat_one_append (unpackMantissa b)
      exact ⟨⟨hm, by omega, by omega, .inl (by omega)⟩, by omega⟩

/-- A number with all the bits of a mantissa is kept without the first of them. -/
private theorem unpack_pack_normal {hm : 0 < m} (h : Canonical f m e)
    (hnormal : 2 ^ f.mantissaBitsWithoutImplicit ≤ m) (hle : e + f.mantissaBits ≤ overflow f) :
    unpack f (pack f (.finite s m e hm)) = .finite s m e hm := by
  have hge := h.ge
  have hlt := h.lt
  have hbias := exponentBias_eq f
  have hmin := minExponent_eq f
  have hbits := mantissaBits_eq f
  have hwidth := two_pow_exponentBits f
  have hlog : m.log2 + 1 = f.mantissaBits := by
    have hlow := (Nat.le_log2 hm.ne').mpr hnormal
    have hhigh := (Nat.log2_lt hm.ne').mpr hlt
    omega
  obtain ⟨biased, hbiased⟩ : ∃ biased : ℕ,
      e + f.exponentBias + f.mantissaBitsWithoutImplicit = biased :=
    Int.eq_ofNat_of_zero_le (by omega)
  have hexponent : (BitVec.ofNat f.exponentBits biased).toNat = biased := by
    rw [BitVec.toNat_ofNat, Nat.mod_eq_of_lt (by omega)]
  -- the exponent is neither that of infinities nor that of short mantissas
  have htop : BitVec.ofNat f.exponentBits biased ≠ -1#_ := fun heq => by
    have hnat := congrArg BitVec.toNat heq
    rw [hexponent, BitVec.neg_one_eq_allOnes, BitVec.toNat_allOnes] at hnat
    omega
  have hleast : BitVec.ofNat f.exponentBits biased ≠ 0#_ := fun heq => by
    have hnat := congrArg BitVec.toNat heq
    rw [hexponent, BitVec.toNat_zero] at hnat
    omega
  -- the first bit of the mantissa is cut off and put back
  have hmantissa : (1#1 ++ BitVec.ofNat f.mantissaBitsWithoutImplicit m).toNat = m := by
    have hpow : 2 ^ f.mantissaBits = 2 * 2 ^ f.mantissaBitsWithoutImplicit := by
      rw [hbits, pow_succ, Nat.mul_comm]
    rw [toNat_one_append, BitVec.toNat_ofNat, Nat.mod_eq_sub_mod hnormal,
      Nat.mod_eq_of_lt (by omega)]
    omega
  -- packed with its exponent field, and read back through the branch of the other exponents
  rw [pack]
  simp only [hbiased, Int.toNat_natCast]
  rw [if_neg (by omega), if_pos hlog, unpack]
  simp only [unpackMantissa_packComponents, unpackExponent_packComponents,
    unpackSign_packComponents, Sign.ofBitVec_toBitVec]
  rw [if_neg htop, if_neg hleast]
  simp only [hexponent, hmantissa]
  congr 1
  omega

/-- A number with a shorter mantissa is kept with its exponent left out. -/
private theorem unpack_pack_subnormal {hm : 0 < m} (hf : 2 ≤ f.exponentBits)
    (hlt : m < 2 ^ f.mantissaBitsWithoutImplicit) :
    unpack f (pack f (.finite s m f.minExponent hm)) = .finite s m f.minExponent hm := by
  have hbias := exponentBias_eq f
  have hmin := minExponent_eq f
  have hbits := mantissaBits_eq f
  have hwidth := two_pow_exponentBits f
  have hone := one_lt_overflow hf
  have hlog : m.log2 + 1 ≠ f.mantissaBits := by
    have hhigh := (Nat.log2_lt hm.ne').mpr hlt
    omega
  have hmantissa : (BitVec.ofNat f.mantissaBitsWithoutImplicit m).toNat = m := by
    rw [BitVec.toNat_ofNat, Nat.mod_eq_of_lt hlt]
  have hnonzero : BitVec.ofNat f.mantissaBitsWithoutImplicit m ≠ 0#_ := fun heq => by
    have hnat := congrArg BitVec.toNat heq
    rw [hmantissa, BitVec.toNat_zero] at hnat
    omega
  have htop : 0#f.exponentBits ≠ -1#_ := fun heq => by
    have hnat := congrArg BitVec.toNat heq
    rw [BitVec.neg_one_eq_allOnes, BitVec.toNat_allOnes, BitVec.toNat_zero] at hnat
    omega
  -- packed with a zero exponent field, and read back through the branch of that field
  rw [pack, if_neg (by omega), if_neg hlog, unpack]
  simp only [unpackMantissa_packComponents, unpackExponent_packComponents,
    unpackSign_packComponents, Sign.ofBitVec_toBitVec]
  rw [if_neg htop, if_pos trivial, dif_neg hnonzero]
  simp only [hmantissa, BitVec.toNat_zero]
  congr 1
  omega

/-- What has the form of the format is read back as it was kept. -/
theorem Canonical.unpack_pack {hm : 0 < m} (h : Canonical f m e) (hf : 2 ≤ f.exponentBits)
    (hle : e + f.mantissaBits ≤ overflow f) :
    unpack f (pack f (.finite s m e hm)) = .finite s m e hm := by
  by_cases hnormal : 2 ^ f.mantissaBitsWithoutImplicit ≤ m
  · exact unpack_pack_normal h hnormal hle
  · obtain rfl := h.normal.resolve_left hnormal
    exact unpack_pack_subnormal hf (by omega)

end DynamicRange.Binary
