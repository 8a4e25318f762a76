import DynamicRange.Proofs.Scalar.Special

/-!
# The sign of a float

The sign has a bit of its own, and rounding does not look at it. So a float and its negative have
one magnitude, the sign of a factor is that of the product, and a word with its first bit flipped
is that of the negative.

## Key results

- `neg_abs`, `neg_mul_eq`: magnitude and product of a negative
- `ofBits_xor_sign`, `toBits_neg`: the negative by its word
-/

namespace DynamicRange.Binary

open Float.Model (UnpackedFloat)
open Float.Model.UnpackedFloat

/-! ### Unpacked floats -/

section Unpacked

variable {f : Float.Model.Format} (u v : UnpackedFloat)

/-- The sign of a product, of which one factor is negated. -/
private theorem neg_sign_mul (s t : Sign) : -s * t = -(s * t) := by
  cases s <;> cases t <;> rfl

/-- A negative has the magnitude of the number. -/
theorem abs_neg_unpacked : u.neg.abs = u.abs := by
  cases u <;> rfl

/-- A negative is NaN only if the number is. -/
theorem isNaN_neg_unpacked : u.neg.isNaN = u.isNaN := by
  cases u <;> rfl

/-- Rounding a mantissa does not look at the sign. -/
private theorem roundWithAccuracy_neg (s : Sign) (m : ℕ) (e : ℤ) (accuracy : Accuracy) :
    roundWithAccuracy f (-s) m e accuracy = (roundWithAccuracy f s m e accuracy).neg := by
  unfold roundWithAccuracy
  dsimp only
  split <;> rfl

/-- A product with a negative is the negative of the product, for infinities and NaN as well. -/
theorem mul_neg_unpacked : mul f u.neg v = (mul f u v).neg := by
  -- either a factor settles the result by itself, or the product of the mantissas is rounded
  cases u <;> cases v <;>
    first
    | rfl
    | exact congrArg _ (neg_sign_mul ..)
    | exact (congrArg (roundWithAccuracy f · _ _ _) (neg_sign_mul ..)).trans
        (roundWithAccuracy_neg ..)

end Unpacked

/-! ### Floats -/

variable {x : Float32}

/-- A negative has the magnitude of the number. -/
theorem neg_abs (x : Float32) : (-x).abs = x.abs := by
  apply eq_of_unpacked_eq
  rw [unpacked_abs, unpacked_abs, unpacked_neg, abs_neg_unpacked]

/-- A product with a negative is the negative of the product. -/
theorem neg_mul_eq (x y : Float32) : -x * y = -(x * y) := by
  have hmul (z : Float32) : unpacked (z * y) = unpack .binary32 (pack .binary32
    (mul .binary32 (unpacked z) (unpacked y))) := Packed.unpack_mul z y
  apply eq_of_unpacked_eq
  rw [unpacked_neg, hmul, hmul, unpacked_neg, mul_neg_unpacked, unpack_pack_neg]

/-- A negative is NaN only if the number is. -/
theorem isNaN_neg (x : Float32) : (-x).isNaN = x.isNaN := by
  have hneg := isNaN_neg_unpacked (unpacked x)
  rwa [← unpacked_neg] at hneg

/-! ### Words -/

/-- The other bit stands for the other sign. -/
private theorem ofBitVec_xor_one (bit : BitVec 1) :
    Sign.ofBitVec (bit ^^^ 1#1) = -Sign.ofBitVec bit := by
  rcases BitVec.eq_zero_or_eq_one bit with rfl | rfl <;> rfl

/-- Flipping the first bit of a word flips the sign, and only the sign. -/
private theorem unpack_xor_sign (b : BitVec 32) :
    unpack .binary32 (b ^^^ 0x80000000#32) = (unpack .binary32 b).neg := by
  -- the mask has a single bit, which is in neither the mantissa nor the exponent
  have hmantissa : @unpackMantissa .binary32 (b ^^^ 0x80000000#32) =
      @unpackMantissa .binary32 b := by
    rw [unpackMantissa_def, unpackMantissa_def, BitVec.extractLsb'_xor]
    exact BitVec.xor_zero
  have hexponent : @unpackExponent .binary32 (b ^^^ 0x80000000#32) =
      @unpackExponent .binary32 b := by
    rw [unpackExponent_def, unpackExponent_def, BitVec.extractLsb'_xor]
    exact BitVec.xor_zero
  have hsign : Sign.ofBitVec (@unpackSign .binary32 (b ^^^ 0x80000000#32)) =
      -Sign.ofBitVec (@unpackSign .binary32 b) := by
    rw [unpackSign_def, unpackSign_def, BitVec.extractLsb'_xor]
    exact ofBitVec_xor_one _
  rw [← @packComponents_unpackSign_unpackExponent_unpackMantissa .binary32 (b ^^^ 0x80000000#32),
    hmantissa, hexponent, hsign, unpack_packComponents_neg,
    packComponents_unpackSign_unpackExponent_unpackMantissa]

/-- A word with its first bit flipped stands for the negative. -/
theorem ofBits_xor_sign (b : UInt32) :
    Float32.ofBits (b ^^^ 0x80000000) = -Float32.ofBits b := by
  apply eq_of_unpacked_eq
  rw [unpacked_neg, unpacked_ofBits, unpacked_ofBits]
  exact unpack_xor_sign b.toBitVec

/-- The word of a negative has the first bit flipped; that of NaN is always the same. -/
theorem toBits_neg (hx : x.isNaN = false) : (-x).toBits = x.toBits ^^^ 0x80000000 := by
  -- a word is kept, since it does not stand for NaN
  have hword : Float32.ofBits (x.toBits ^^^ 0x80000000) = -x := by
    rw [ofBits_xor_sign, Float32.ofBits_toBits]
  rw [← hword]
  exact toBits_ofBits (by rw [hword, isNaN_neg, hx])

end DynamicRange.Binary
