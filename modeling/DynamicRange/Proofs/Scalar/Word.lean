import DynamicRange.Proofs.Scalar.Single

/-!
# Single-precision numbers by their words

Without the first bit, which is the sign, the word of a number counts the magnitudes from zero
upward. So what a function decides by comparing words it decides by comparing values.

## Key results

- `finite_iff`, `Finite.value_eq`: what a word stands for
- `strictMono_wordValue`: words and magnitudes have one order
- `ofBits_spec`: the number of a word
-/

namespace DynamicRange.Binary

open Float.Model.UnpackedFloat

variable {x : Float32} {b : UInt32} {w : ℕ}

/-- The magnitude that a word without its first bit stands for. -/
def wordValue (w : ℕ) : ℚ :=
  if w < 2 ^ 23 then w * 2 ^ (-149 : ℤ)
  else ((2 ^ 23 + w % 2 ^ 23 : ℕ) : ℚ) * 2 ^ ((w / 2 ^ 23 : ℕ) - 150 : ℤ)

/-! ### Fields -/

/-- The fraction of a word: its last 23 bits. -/
private theorem toNat_unpackMantissa (b : UInt32) :
    (@unpackMantissa .binary32 b.toBitVec).toNat = b.toNat % 2 ^ 23 := by
  rw [unpackMantissa_def, BitVec.extractLsb'_toNat, Nat.shiftRight_zero]
  rfl

/-- The exponent field of a word: the eight bits before the fraction. -/
private theorem toNat_unpackExponent (b : UInt32) :
    (@unpackExponent .binary32 b.toBitVec).toNat = b.toNat / 2 ^ 23 % 2 ^ 8 := by
  rw [unpackExponent_def, BitVec.extractLsb'_toNat, Nat.shiftRight_eq_div_pow]
  rfl

/-- The sign bit of a word: its first bit. -/
private theorem toNat_unpackSign (b : UInt32) :
    (@unpackSign .binary32 b.toBitVec).toNat = b.toNat / 2 ^ 31 := by
  have hlt := b.toNat_lt
  rw [unpackSign_def, BitVec.extractLsb'_toNat, Nat.shiftRight_eq_div_pow]
  show b.toNat / 2 ^ 31 % 2 ^ 1 = _
  omega

/-- The sign that the first bit of a word stands for. -/
def wordSign (b : UInt32) : Sign := if b.toNat < 2 ^ 31 then .positive else .negative

/-- The sign is read off the first bit alone. -/
private theorem ofBitVec_unpackSign (b : UInt32) :
    Sign.ofBitVec (@unpackSign .binary32 b.toBitVec) = wordSign b := by
  have hlt := b.toNat_lt
  have hsign := toNat_unpackSign b
  unfold wordSign
  split
  · have : @unpackSign .binary32 b.toBitVec = 0#1 := BitVec.toNat_inj.mp (by
      rw [hsign]
      show _ = 0
      omega)
    rw [this]
    rfl
  · have : @unpackSign .binary32 b.toBitVec = 1#1 := BitVec.toNat_inj.mp (by
      rw [hsign]
      show _ = 1
      omega)
    rw [this]
    rfl

/-- A word is that of a number unless its exponent is the largest. -/
private theorem unpack_spec (b : UInt32) :
    ((unpack .binary32 b.toBitVec).isFinite = true ↔ b.toNat % 2 ^ 31 < 255 * 2 ^ 23) ∧
      (b.toNat % 2 ^ 31 < 255 * 2 ^ 23 → toRat (unpack .binary32 b.toBitVec) =
        signed (wordSign b) (wordValue (b.toNat % 2 ^ 31))) := by
  have hmantissa := toNat_unpackMantissa b
  have hexponent := toNat_unpackExponent b
  have hbias : (Float.Model.Format.binary32.exponentBias : ℤ) +
      (Float.Model.Format.binary32.mantissaBitsWithoutImplicit : ℤ) = 150 := rfl
  have hfield : b.toNat % 2 ^ 31 % 2 ^ 23 = b.toNat % 2 ^ 23 := by omega
  rw [unpack]
  simp only [hbias, ofBitVec_unpackSign]
  split
  next htop =>
    -- an exponent of ones: an infinity or a NaN
    have h255 : b.toNat / 2 ^ 23 % 2 ^ 8 = 255 := by rw [← hexponent, htop]; rfl
    have hge : ¬b.toNat % 2 ^ 31 < 255 * 2 ^ 23 := by omega
    refine ⟨iff_of_false ?_ hge, fun h => absurd h hge⟩
    split <;> exact Bool.false_ne_true
  next htop =>
    have hne : b.toNat / 2 ^ 23 % 2 ^ 8 ≠ 255 := fun heq => htop (BitVec.toNat_inj.mp (by
      rw [hexponent, heq]
      rfl))
    have hlt : b.toNat % 2 ^ 31 < 255 * 2 ^ 23 := by omega
    split
    next hleast =>
      -- an exponent of zeros: the fraction counts the least number
      have hzero : b.toNat / 2 ^ 23 % 2 ^ 8 = 0 := by rw [← hexponent, hleast]; rfl
      have hsmall : b.toNat % 2 ^ 31 < 2 ^ 23 := by omega
      have hword : wordValue (b.toNat % 2 ^ 31) = (b.toNat % 2 ^ 23 : ℕ) * 2 ^ (-149 : ℤ) := by
        rw [wordValue, if_pos hsmall, ← hfield, Nat.mod_eq_of_lt hsmall]
      split
      -- a fraction of zeros is a zero of either sign
      next hnone =>
        have hnone' : b.toNat % 2 ^ 23 = 0 := by rw [← hmantissa, hnone]; rfl
        refine ⟨iff_of_true rfl hlt, fun _ => ?_⟩
        rw [hword, hnone', Nat.cast_zero, zero_mul]
        cases wordSign b <;> simp [signed, toRat]
      · refine ⟨iff_of_true rfl hlt, fun _ => ?_⟩
        rw [hword, toRat, hmantissa, hleast]
        rfl
    next hleast =>
      -- any other exponent: the mantissa has one more bit than the fraction
      have hne' : b.toNat / 2 ^ 23 % 2 ^ 8 ≠ 0 := fun heq => hleast (BitVec.toNat_inj.mp (by
        rw [hexponent, heq]
        rfl))
      have hlarge : ¬b.toNat % 2 ^ 31 < 2 ^ 23 := by omega
      have hfield' : b.toNat % 2 ^ 31 / 2 ^ 23 = b.toNat / 2 ^ 23 % 2 ^ 8 := by omega
      refine ⟨iff_of_true rfl hlt, fun _ => ?_⟩
      have happend := toNat_one_append (@unpackMantissa .binary32 b.toBitVec)
      rw [wordValue, if_neg hlarge, toRat, happend, hmantissa, hexponent, hfield, hfield']

/-- A float is a number exactly if its word without the sign is below that of infinity. -/
theorem finite_iff (x : Float32) : Finite x ↔ x.toBits.toNat % 2 ^ 31 < 255 * 2 ^ 23 :=
  (unpack_spec x.toBits).1

/-- The value of a number, read off its word. -/
theorem Finite.value_eq (h : Finite x) :
    value x = signed (wordSign x.toBits) (wordValue (x.toBits.toNat % 2 ^ 31)) :=
  (unpack_spec x.toBits).2 ((finite_iff x).mp h)

/-- The number of a word. -/
theorem ofBits_spec (h : b.toNat < 255 * 2 ^ 23) :
    Finite (Float32.ofBits b) ∧ value (Float32.ofBits b) = wordValue b.toNat := by
  have hmod : b.toNat % 2 ^ 31 = b.toNat := Nat.mod_eq_of_lt (by omega)
  obtain ⟨hiff, hvalue⟩ := unpack_spec b
  -- without the first bit the word is itself, and the sign is positive
  rw [hmod] at hiff hvalue
  have hsign : wordSign b = .positive := if_pos (by omega)
  rw [Finite, value, unpacked_ofBits, hvalue h, hsign]
  exact ⟨hiff.mpr h, rfl⟩

/-! ### Order -/

/-- The magnitude of a word is not negative. -/
theorem wordValue_nonneg (w : ℕ) : 0 ≤ wordValue w := by
  unfold wordValue
  split <;> positivity

/-- A larger word has a larger magnitude. -/
theorem strictMono_wordValue : StrictMono wordValue := by
  refine strictMono_nat_of_lt_succ fun w => ?_
  have hadd (e : ℤ) : (2 : ℚ) ^ (e + 1) = 2 * 2 ^ e := by
    rw [zpow_add₀ two_ne_zero, zpow_one, mul_comm]
  rcases lt_trichotomy (w + 1) (2 ^ 23) with hlt | heq | hgt
  -- both words are fractions at the least exponent
  · have hunit : (0 : ℚ) < 2 ^ (-149 : ℤ) := by positivity
    rw [wordValue, wordValue, if_pos (by omega), if_pos hlt]
    push_cast
    linarith
  · -- from the longest fraction to the least mantissa of 24 bits
    obtain rfl : w = 2 ^ 23 - 1 := by omega
    norm_num [wordValue]
  -- both have a mantissa of 24 bits
  · obtain ⟨q, r, hr, rfl⟩ : ∃ q r, r < 2 ^ 23 ∧ w = 2 ^ 23 * q + r :=
      ⟨w / 2 ^ 23, w % 2 ^ 23, by omega, by omega⟩
    have hunit : (0 : ℚ) < 2 ^ ((q : ℤ) - 150) := by positivity
    rw [wordValue, wordValue, if_neg (by omega), if_neg (by omega)]
    by_cases hlast : r + 1 < 2 ^ 23
    · rw [show (2 ^ 23 * q + r) % 2 ^ 23 = r by omega, show (2 ^ 23 * q + r) / 2 ^ 23 = q by omega,
        show (2 ^ 23 * q + r + 1) % 2 ^ 23 = r + 1 by omega,
        show (2 ^ 23 * q + r + 1) / 2 ^ 23 = q by omega]
      refine mul_lt_mul_of_pos_right ?_ hunit
      exact_mod_cast (by omega : 2 ^ 23 + r < 2 ^ 23 + (r + 1))
    · -- the mantissa has run through, and the exponent moves
      obtain rfl : r = 2 ^ 23 - 1 := by omega
      rw [show (2 ^ 23 * q + (2 ^ 23 - 1)) % 2 ^ 23 = 2 ^ 23 - 1 by omega,
        show (2 ^ 23 * q + (2 ^ 23 - 1)) / 2 ^ 23 = q by omega,
        show (2 ^ 23 * q + (2 ^ 23 - 1) + 1) % 2 ^ 23 = 0 by omega,
        show (2 ^ 23 * q + (2 ^ 23 - 1) + 1) / 2 ^ 23 = q + 1 by omega,
        show (((q + 1 : ℕ) : ℤ) - 150) = (q : ℤ) - 150 + 1 by push_cast; ring, hadd, ← mul_assoc]
      exact mul_lt_mul_of_pos_right (by norm_num) hunit

/-- The word of a positive number. -/
theorem Finite.word_of_pos (h : Finite x) (hpos : 0 < value x) :
    x.toBits.toNat < 255 * 2 ^ 23 ∧ value x = wordValue x.toBits.toNat := by
  have hvalue := h.value_eq
  have hlt := (finite_iff x).mp h
  have hnonneg := wordValue_nonneg (x.toBits.toNat % 2 ^ 31)
  by_cases hsign : x.toBits.toNat < 2 ^ 31
  · rw [Nat.mod_eq_of_lt hsign] at hlt hvalue
    rw [wordSign, if_pos hsign] at hvalue
    exact ⟨hlt, hvalue⟩
  -- a negative number has no positive value
  · rw [wordSign, if_neg hsign, signed] at hvalue
    linarith

/-- The magnitude of a number is that of its word without the sign. -/
theorem Finite.abs_value (h : Finite x) : |value x| = wordValue (x.toBits.toNat % 2 ^ 31) := by
  rw [h.value_eq, abs_signed, abs_of_nonneg (wordValue_nonneg _)]

end DynamicRange.Binary
