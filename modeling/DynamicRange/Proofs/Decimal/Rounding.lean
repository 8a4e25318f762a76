import DynamicRange.Decimal.Basic
import DynamicRange.Proofs.Decimal.Packing

/-!
# Rounding of decimals

A decimal is read by one rounding of a mantissa, together with a note of what lies behind it. How
many bits are dropped is decided by the number of bits that there are; still the outcome depends
on nothing but the number that the decimal stands for.

## Key results

- `Represents`: the numbers that a mantissa with its round and sticky bits may stand for
- `roundWithAccuracy_congr`: rounding depends on the value alone
- `Decimal.toSingle_congr`: equal decimals have one value
- `Decimal.toSingle_of_canonical`: a number of the format is read as itself
-/

namespace DynamicRange

open Float.Model (Format)

namespace Single

open Float.Model (totalExponent)
open Float.Model.UnpackedFloat

/-! ### Round and sticky bits -/

/-- What a mantissa with a round and a sticky bit tells about a number: its integer part, and where
the rest lies with respect to zero and one half. -/
def Represents (em : ExtendedMantissa) (x : ℚ) : Prop :=
  match em.roundBit, em.stickyBit with
  | false, false => x = em.mantissa
  | false, true => em.mantissa < x ∧ x < em.mantissa + 1 / 2
  | true, false => x = em.mantissa + 1 / 2
  | true, true => em.mantissa + 1 / 2 < x ∧ x < em.mantissa + 1

namespace Represents

variable {em em' : ExtendedMantissa} {x : ℚ}

/-- The mantissa is the integer part of the number. -/
theorem floor (h : Represents em x) : (em.mantissa : ℚ) ≤ x ∧ x < em.mantissa + 1 := by
  obtain ⟨mantissa, round, sticky⟩ := em
  -- in each of the four cases the rest is at least zero and less than one
  cases round <;> cases sticky <;> simp only [Represents] at h ⊢ <;> constructor <;> linarith

/-- A number has one mantissa with round and sticky bits. -/
theorem unique (h : Represents em x) (h' : Represents em' x) : em = em' := by
  have hfloor := h.floor
  have hfloor' := h'.floor
  -- both mantissas are the integer part
  have hle : em.mantissa < em'.mantissa + 1 := by
    exact_mod_cast hfloor.1.trans_lt hfloor'.2
  have hle' : em'.mantissa < em.mantissa + 1 := by
    exact_mod_cast hfloor'.1.trans_lt hfloor.2
  obtain ⟨mantissa, round, sticky⟩ := em
  obtain ⟨mantissa', round', sticky'⟩ := em'
  obtain rfl : mantissa = mantissa' := by
    simp only at hle hle'
    omega
  -- the rest lies in one of four places, and the bits tell which
  cases round <;> cases sticky <;> cases round' <;> cases sticky' <;>
    simp only [Represents] at h h' <;> first | rfl | (exfalso; linarith)

private theorem one_bne_zero : (1 != 0) = true := rfl

/-- Dropping a bit halves the number. -/
theorem shiftRightOne (h : Represents em x) : Represents em.shiftRightOne (x / 2) := by
  obtain ⟨mantissa, round, sticky⟩ := em
  have hsplit : ((mantissa / 2 : ℕ) : ℚ) * 2 + ((mantissa % 2 : ℕ) : ℚ) = mantissa := by
    exact_mod_cast Nat.div_add_mod' mantissa 2
  -- the dropped bit becomes the round bit, and the old round bit joins the sticky one
  rcases Nat.mod_two_eq_zero_or_one mantissa with hbit | hbit <;>
    rw [hbit] at hsplit <;> cases round <;> cases sticky <;>
    simp only [Represents, ExtendedMantissa.shiftRightOne, hbit, bne_self_eq_false, one_bne_zero,
      Bool.or_self, Bool.or_true, Bool.or_false] at h ⊢ <;>
    norm_num at h hsplit ⊢ <;> first | linarith | (constructor <;> linarith)

/-- Dropping `n` bits divides the number by `2 ^ n`. -/
theorem shiftRight (h : Represents em x) (n : ℕ) : Represents (em >>> n) (x / 2 ^ n) := by
  -- one bit is dropped after another
  induction n with
  | zero =>
    rw [pow_zero, div_one]
    exact h
  | succ n ih =>
    rw [pow_succ, ← div_div]
    exact ih.shiftRightOne

end Represents

/-- A mantissa without bits behind it stands for itself. -/
theorem represents_exact (mantissa : ℕ) :
    Represents (.ofMantissaAndAccuracy mantissa .exact) mantissa := rfl

/-- A quotient has its integer part for a mantissa, and the remainder behind it. -/
theorem represents_quotient (num : ℕ) {den : ℕ} (hden : 0 < den) :
    Represents (.ofMantissaAndAccuracy (num / den) (accuracyOfFraction (num % den) den))
      ((num : ℚ) / den) := by
  have hden' : (0 : ℚ) < den := by exact_mod_cast hden
  -- the integer part and the remainder make up the dividend
  have hsplit : ((num / den : ℕ) : ℚ) * den + ((num % den : ℕ) : ℚ) = num := by
    exact_mod_cast Nat.div_add_mod' num den
  have hlt : ((num % den : ℕ) : ℚ) < den := by exact_mod_cast Nat.mod_lt num hden
  rw [accuracyOfFraction]
  split
  next hzero =>
    rw [hzero] at hsplit
    simp only [Represents, ExtendedMantissa.ofMantissaAndAccuracy]
    rw [div_eq_iff hden'.ne']
    simpa using hsplit.symm
  next hpos =>
    -- twice the remainder against the divisor: below, at or above the middle
    have hpos : (0 : ℚ) < ((num % den : ℕ) : ℚ) := by exact_mod_cast Nat.pos_of_ne_zero hpos
    rcases hcompare : compare (2 * (num % den)) den with _ | _ | _
    · have hless : 2 * ((num % den : ℕ) : ℚ) < den := by
        exact_mod_cast Nat.compare_eq_lt.mp hcompare
      simp only [Represents, ExtendedMantissa.ofMantissaAndAccuracy]
      rw [lt_div_iff₀ hden', div_lt_iff₀ hden']
      constructor <;> linarith
    · have heq : 2 * ((num % den : ℕ) : ℚ) = den := by
        exact_mod_cast Nat.compare_eq_eq.mp hcompare
      simp only [Represents, ExtendedMantissa.ofMantissaAndAccuracy]
      rw [div_eq_iff hden'.ne']
      linarith
    · have hmore : (den : ℚ) < 2 * ((num % den : ℕ) : ℚ) := by
        exact_mod_cast Nat.compare_eq_gt.mp hcompare
      simp only [Represents, ExtendedMantissa.ofMantissaAndAccuracy]
      rw [lt_div_iff₀ hden', div_lt_iff₀ hden']
      constructor <;> linarith

/-! ### The exponent of a value -/

/-- The exponent that the format asks for. -/
def targetExponent (v : ℚ) : ℤ := max (Int.log 2 v - 23) (-149)

/-- The exponent that the format asks for, by the number of bits: 24 of them, and none below `-149`.
-/
theorem format_targetExponent (e : ℤ) :
    Format.binary32.targetExponent e = max (e - 24) (-149) := rfl

/-- The logarithm is the power of two at or below a value. -/
theorem log_eq_iff {v : ℚ} (hv : 0 < v) {k : ℤ} :
    Int.log 2 v = k ↔ (2 : ℚ) ^ k ≤ v ∧ v < 2 ^ (k + 1) := by
  -- the two halves are the library's bounds for the integer logarithm
  have hle : ((2 : ℕ) : ℚ) ^ k ≤ v ↔ k ≤ Int.log 2 v := Int.zpow_le_iff_le_log one_lt_two hv
  have hlt : v < ((2 : ℕ) : ℚ) ^ (k + 1) ↔ Int.log 2 v < k + 1 :=
    Int.lt_zpow_iff_log_lt one_lt_two hv
  push_cast at hle hlt
  rw [hle, hlt]
  omega

/-- A natural number has its first bit. -/
theorem two_pow_log2_le {mantissa : ℕ} (hpos : 0 < mantissa) :
    (2 : ℚ) ^ (mantissa.log2 : ℤ) ≤ mantissa := by
  rw [zpow_natCast]
  exact_mod_cast (Nat.le_log2 hpos.ne').mp le_rfl

/-- A natural number lies below the power of two next to its first bit. -/
theorem lt_two_pow_log2 {mantissa : ℕ} (hpos : 0 < mantissa) :
    (mantissa : ℚ) + 1 ≤ 2 ^ (mantissa.log2 + 1 : ℤ) := by
  have hlt : mantissa < 2 ^ (mantissa.log2 + 1) := (Nat.log2_lt hpos.ne').mp (Nat.lt_succ_self _)
  have hcast : ((2 ^ (mantissa.log2 + 1) : ℕ) : ℚ) = 2 ^ (mantissa.log2 + 1 : ℤ) := by
    push_cast
    exact (zpow_natCast _ _).symm
  rw [← hcast]
  exact_mod_cast hlt

/-- The first bit of the mantissa is that of the value. -/
theorem totalExponent_eq_log {em : ExtendedMantissa} {v : ℚ} {exponent : ℤ}
    (h : Represents em (v / 2 ^ exponent)) (hpos : 0 < em.mantissa) (hv : 0 < v) :
    totalExponent em.mantissa exponent = Int.log 2 v + 1 := by
  have htwo : (0 : ℚ) < 2 ^ exponent := zpow_pos two_pos _
  -- the value is between the mantissa and the next one, in units of the exponent
  obtain ⟨hge, hlt⟩ := h.floor
  rw [le_div_iff₀ htwo] at hge
  rw [div_lt_iff₀ htwo] at hlt
  have hlog : Int.log 2 v = em.mantissa.log2 + exponent := by
    rw [log_eq_iff hv, add_right_comm, zpow_add₀ two_ne_zero, zpow_add₀ two_ne_zero]
    -- both bounds move from the mantissa to its power of two
    have hlow := mul_le_mul_of_nonneg_right (two_pow_log2_le hpos) htwo.le
    have hhigh := mul_le_mul_of_nonneg_right (lt_two_pow_log2 hpos) htwo.le
    exact ⟨hlow.trans hge, hlt.trans_le hhigh⟩
  rw [totalExponent, hlog]
  omega

/-- A value with no integer part in units of the given power lies below that power. -/
theorem log_lt_of_mantissa_eq_zero {em : ExtendedMantissa} {v : ℚ} {exponent : ℤ}
    (h : Represents em (v / 2 ^ exponent)) (hzero : em.mantissa = 0) (hv : 0 < v) :
    Int.log 2 v < exponent := by
  have htwo : (0 : ℚ) < 2 ^ exponent := zpow_pos two_pos _
  -- without an integer part the value is below one unit
  have hlt := h.floor.2
  rw [hzero, div_lt_iff₀ htwo] at hlt
  have hiff : v < ((2 : ℕ) : ℚ) ^ exponent ↔ Int.log 2 v < exponent :=
    Int.lt_zpow_iff_log_lt one_lt_two hv
  rw [← hiff]
  simpa using hlt

/-! ### Rounding -/

/-- The accuracy does not change the mantissa. -/
theorem mantissa_ofMantissaAndAccuracy (mantissa : ℕ) (accuracy : Accuracy) :
    (ExtendedMantissa.ofMantissaAndAccuracy mantissa accuracy).mantissa = mantissa := by
  rcases accuracy with _ | _ | _ | _ <;> rfl

variable {mantissa mantissa' : ℕ} {exponent exponent' : ℤ} {accuracy accuracy' : Accuracy} {v : ℚ}

/-- A mantissa that stands for a value, in units small enough for the format. -/
structure Carries (mantissa : ℕ) (exponent : ℤ) (accuracy : Accuracy) (v : ℚ) : Prop where
  represents : Represents (.ofMantissaAndAccuracy mantissa accuracy) (v / 2 ^ exponent)
  exponent_le : exponent ≤ targetExponent v

/-- The bits that are too many are dropped, whatever their number. -/
theorem Carries.shiftToTargetExponent (h : Carries mantissa exponent accuracy v) (hv : 0 < v) :
    Represents (shiftToTargetExponent .binary32 mantissa exponent accuracy).1
        (v / 2 ^ targetExponent v) ∧
      (shiftToTargetExponent .binary32 mantissa exponent accuracy).2 = targetExponent v := by
  obtain ⟨hrepresents, hle⟩ := h
  have htarget : Format.binary32.targetExponent (totalExponent mantissa exponent) =
      targetExponent v := by
    have hmantissa := mantissa_ofMantissaAndAccuracy mantissa accuracy
    rcases Nat.eq_zero_or_pos mantissa with hzero | hpos
    · -- with no bit before the point the least exponent is reached already
      have hlog := log_lt_of_mantissa_eq_zero hrepresents (hmantissa.trans hzero) hv
      rw [targetExponent] at hle ⊢
      rw [format_targetExponent, totalExponent, hzero]
      have hlog2 : Nat.log2 0 = 0 := rfl
      omega
    -- with bits before the point the logarithm of the value counts them
    · have htotal := totalExponent_eq_log hrepresents (by rwa [hmantissa]) hv
      rw [hmantissa] at htotal
      rw [format_targetExponent, htotal, targetExponent]
      omega
  -- the shift goes down to the target, because the unit is not above it
  have hshift : ((targetExponent v - exponent).toNat : ℤ) = targetExponent v - exponent := by omega
  have hvalue : v / 2 ^ targetExponent v =
      v / 2 ^ exponent / 2 ^ (targetExponent v - exponent).toNat := by
    rw [div_div, ← zpow_natCast, hshift, ← zpow_add₀ two_ne_zero]
    congr 2
    omega
  simp only [Float.Model.UnpackedFloat.shiftToTargetExponent, shiftToExponent, htarget]
  refine ⟨?_, by omega⟩
  rw [hvalue]
  -- the bits are dropped by the same number of halvings
  exact hrepresents.shiftRight _

/-- Rounding depends on the value alone. -/
theorem roundWithAccuracy_congr {sign : Sign} (h : Carries mantissa exponent accuracy v)
    (h' : Carries mantissa' exponent' accuracy' v) (hv : 0 < v) :
    roundWithAccuracy .binary32 sign mantissa exponent accuracy =
      roundWithAccuracy .binary32 sign mantissa' exponent' accuracy' := by
  -- shifted to the target, both mantissas stand for the value in the same unit
  obtain ⟨hrepresents, hexponent⟩ := h.shiftToTargetExponent hv
  obtain ⟨hrepresents', hexponent'⟩ := h'.shiftToTargetExponent hv
  have hshift : Float.Model.UnpackedFloat.shiftToTargetExponent .binary32 mantissa exponent
        accuracy =
      Float.Model.UnpackedFloat.shiftToTargetExponent .binary32 mantissa' exponent' accuracy' :=
    Prod.ext (hrepresents.unique hrepresents') (hexponent.trans hexponent'.symm)
  rw [roundWithAccuracy, roundWithAccuracy, hshift]

/-- The mantissa of a number of the format is in the units that the format asks for. -/
theorem Canonical.targetExponent_eq (h : Canonical mantissa exponent) :
    Format.binary32.targetExponent (totalExponent mantissa exponent) = exponent := by
  obtain ⟨hpos, hlt, hge, hle, hnormal⟩ := h
  have hlog : mantissa.log2 < 24 := (Nat.log2_lt hpos.ne').mpr hlt
  rw [format_targetExponent, totalExponent]
  -- either the mantissa has all its bits, or the exponent is the least one
  rcases hnormal with hnormal | rfl
  · have hlog' : 23 ≤ mantissa.log2 := (Nat.le_log2 hpos.ne').mpr hnormal
    omega
  · omega

/-- A number of the format is not changed by rounding. -/
theorem Canonical.roundWithAccuracy {sign : Sign} (h : Canonical mantissa exponent) :
    roundWithAccuracy .binary32 sign mantissa exponent .exact =
      .finite sign mantissa exponent h.mantissa_pos := by
  -- there is nothing to shift
  have hshift : shiftToTargetExponent .binary32 mantissa exponent .exact =
      (.ofMantissaAndAccuracy mantissa .exact, exponent) := by
    simp only [shiftToTargetExponent, shiftToExponent, h.targetExponent_eq, Int.sub_self]
    exact congrArg _ (Int.add_zero exponent)
  -- and with no bits behind the mantissa there is nothing to round
  have hmantissa : (ExtendedMantissa.ofMantissaAndAccuracy mantissa .exact).roundedMantissa =
      mantissa := rfl
  unfold Float.Model.UnpackedFloat.roundWithAccuracy
  simp only [hshift, hmantissa, mantissa_ofMantissaAndAccuracy]
  exact dif_neg h.mantissa_pos.ne'

/-- A number of the format stands for itself. -/
theorem Canonical.carries (h : Canonical mantissa exponent) :
    Carries mantissa exponent .exact (mantissa * 2 ^ exponent) := by
  have hpos : (0 : ℚ) < mantissa := by exact_mod_cast h.mantissa_pos
  have htwo : (0 : ℚ) < 2 ^ exponent := zpow_pos two_pos _
  have hrepresents : Represents (.ofMantissaAndAccuracy mantissa .exact)
      (mantissa * 2 ^ exponent / 2 ^ exponent) := by
    rw [mul_div_cancel_right₀ _ htwo.ne']
    exact represents_exact mantissa
  -- its unit is the one the format asks for
  have htotal := totalExponent_eq_log hrepresents h.mantissa_pos (mul_pos hpos htwo)
  have htarget := h.targetExponent_eq
  rw [mantissa_ofMantissaAndAccuracy] at htotal
  rw [htotal, format_targetExponent] at htarget
  refine ⟨hrepresents, ?_⟩
  rw [targetExponent]
  omega

/-- Units of a power of two that leave a natural number for a value of at least one. -/
theorem carries_of_nat {n : ℕ} (hpos : 0 < n) : Carries (n * 2 ^ 24) (-24) .exact n := by
  have hone : (1 : ℚ) ≤ n := by exact_mod_cast hpos
  refine ⟨?_, ?_⟩
  -- in units of `2 ^ -24` the number has 24 bits more
  · have hvalue : (n : ℚ) / 2 ^ (-24 : ℤ) = ((n * 2 ^ 24 : ℕ) : ℚ) := by
      rw [zpow_neg, div_inv_eq_mul]
      push_cast
      rfl
    rw [hvalue]
    exact represents_exact _
  -- a value of at least one has its first bit before the point
  · have hlog : 0 ≤ Int.log 2 (n : ℚ) := by
      rw [Int.log_natCast]
      exact Int.natCast_nonneg _
    rw [targetExponent]
    omega

/-- The number of bits before the point of a quotient, up to one. -/
theorem le_log_quotient {num den : ℕ} (hnum : 0 < num) (hden : 0 < den) :
    (num.log2 : ℤ) - den.log2 - 1 ≤ Int.log 2 ((num : ℚ) / den) := by
  have hnum' : (0 : ℚ) < num := by exact_mod_cast hnum
  have hden' : (0 : ℚ) < den := by exact_mod_cast hden
  rw [← Int.zpow_le_iff_le_log one_lt_two (div_pos hnum' hden'), le_div_iff₀ hden']
  calc ((2 : ℕ) : ℚ) ^ ((num.log2 : ℤ) - den.log2 - 1) * den
      ≤ 2 ^ ((num.log2 : ℤ) - den.log2 - 1) * 2 ^ (den.log2 + 1 : ℤ) := by
        -- the divisor is below the power of two next to its first bit
        have hlt := lt_two_pow_log2 hden
        refine mul_le_mul (by norm_num) (by linarith) hden'.le (zpow_nonneg two_pos.le _)
    _ = 2 ^ (num.log2 : ℤ) := by
        rw [← zpow_add₀ two_ne_zero]
        congr 1
        omega
    _ ≤ num := two_pow_log2_le hnum

/-- A quotient in units small enough, with a note of the remainder. -/
theorem carries_divCore {num den : ℕ} (hnum : 0 < num) (hden : 0 < den) :
    Carries (divCore .binary32 num 0 den 0).1 (divCore .binary32 num 0 den 0).2.1
      (divCore .binary32 num 0 den 0).2.2 ((num : ℚ) / den) := by
  -- the dividend is shifted until the quotient has the bits that the format asks for
  generalize hunit : min ((0 : ℤ) - 0)
    (Format.binary32.targetExponent (totalExponent num 0 - totalExponent den 0)) = unit
  have hcore : divCore .binary32 num 0 den 0 =
      ((num <<< (-unit).toNat) / den, unit,
        accuracyOfFraction ((num <<< (-unit).toNat) % den) den) := by
    rw [← Int.zero_sub unit, ← hunit]
    rfl
  rw [format_targetExponent, totalExponent, totalExponent] at hunit
  rw [hcore]
  refine ⟨?_, ?_⟩
  -- shifting the dividend is the same as making the unit smaller
  · have hvalue : (num : ℚ) / den / 2 ^ unit = ((num <<< (-unit).toNat : ℕ) : ℚ) / den := by
      have hshift : ((-unit).toNat : ℤ) = -unit := by omega
      rw [Nat.shiftLeft_eq]
      push_cast
      rw [← zpow_natCast, hshift, zpow_neg]
      ring
    rw [hvalue]
    exact represents_quotient _ hden
  -- the quotient has the bits that its two lengths tell, up to one
  · have hlog := le_log_quotient hnum hden
    simp only [targetExponent]
    omega

end Single

namespace Decimal

open Single
open Float.Model.UnpackedFloat (roundWithAccuracy)

/-- The number that a decimal stands for. -/
def toRat (d : Decimal) : ℚ := d.units * 10 ^ d.exponent

/-- A decimal that is not clamped is read by one rounding of a mantissa that stands for it. -/
theorem exists_carries {d : Decimal} (hunits : 0 < d.units) (hlow : -256 ≤ d.exponent)
    (hhigh : d.exponent ≤ 256) :
    ∃ mantissa exponent accuracy, Carries mantissa exponent accuracy d.toRat ∧
      d.toSingle = ⟨.pack (roundWithAccuracy .binary32 .positive mantissa exponent accuracy)⟩ := by
  obtain ⟨units, exponent⟩ := d
  simp only [toRat, toSingle, Float32.Model.ofScientific,
    Float.Model.UnpackedFloat.ofScientific] at hunits hlow hhigh ⊢
  -- the exponent is far inside what the reading clamps to
  have hbits : (2 : ℤ) ^ Format.binary32.exponentBits = 256 := rfl
  rw [dif_neg hunits.ne', if_neg (by omega), if_neg (by omega)]
  by_cases hsign : 0 ≤ exponent
  · -- a natural number
    obtain ⟨k, rfl⟩ := Int.eq_ofNat_of_zero_le hsign
    have hpos : 0 < units * 10 ^ k := by positivity
    rw [if_pos hsign]
    refine ⟨_, _, _, ?_, rfl⟩
    have hmantissa : (units <<< Format.binary32.mantissaBits) * 10 ^ (k : ℤ).toNat =
        units * 10 ^ k * 2 ^ 24 := by
      have hwidth : Format.binary32.mantissaBits = 24 := rfl
      rw [hwidth, Nat.shiftLeft_eq, Int.toNat_natCast]
      ring
    have hvalue : (units : ℚ) * 10 ^ (k : ℤ) = ((units * 10 ^ k : ℕ) : ℚ) := by
      push_cast
      rw [zpow_natCast]
    rw [hmantissa, hvalue]
    exact carries_of_nat hpos
  · -- a quotient by a power of ten
    obtain ⟨k, hk⟩ := Int.eq_ofNat_of_zero_le (show 0 ≤ -exponent by omega)
    rw [if_neg hsign]
    refine ⟨_, _, _, ?_, rfl⟩
    have hvalue : (units : ℚ) * 10 ^ exponent = units / ((10 ^ (-exponent).toNat : ℕ) : ℚ) := by
      rw [hk, Int.toNat_natCast]
      push_cast
      rw [← zpow_natCast, ← hk, zpow_neg, div_inv_eq_mul]
    rw [hvalue]
    exact carries_divCore hunits (by positivity)

/-- A decimal with units is positive. -/
theorem toRat_pos {d : Decimal} (hunits : 0 < d.units) : 0 < d.toRat := by
  have hcast : (0 : ℚ) < d.units := by exact_mod_cast hunits
  exact mul_pos hcast (zpow_pos (by norm_num) _)

/-- Decimals that stand for the same number have one value. -/
theorem toSingle_congr {d d' : Decimal} (h : d.toRat = d'.toRat) (hunits : 0 < d.units)
    (hexponent : -256 ≤ d.exponent ∧ d.exponent ≤ 256) (hunits' : 0 < d'.units)
    (hexponent' : -256 ≤ d'.exponent ∧ d'.exponent ≤ 256) : d.toSingle = d'.toSingle := by
  -- each is read by rounding a mantissa that stands for its number
  obtain ⟨_, _, _, hcarries, hsingle⟩ := exists_carries hunits hexponent.1 hexponent.2
  obtain ⟨_, _, _, hcarries', hsingle'⟩ := exists_carries hunits' hexponent'.1 hexponent'.2
  rw [← h] at hcarries'
  rw [hsingle, hsingle', roundWithAccuracy_congr hcarries hcarries' (toRat_pos hunits)]

/-- The decimal of a number of the format is read as that number. -/
theorem toSingle_of_canonical {d : Decimal} {mantissa : ℕ} {exponent : ℤ}
    (h : Canonical mantissa exponent) (hvalue : d.toRat = mantissa * 2 ^ exponent)
    (hunits : 0 < d.units) (hexponent : -256 ≤ d.exponent ∧ d.exponent ≤ 256) :
    d.toSingle = ⟨.pack (.finite .positive mantissa exponent h.mantissa_pos)⟩ := by
  obtain ⟨_, _, _, hcarries, hsingle⟩ := exists_carries hunits hexponent.1 hexponent.2
  -- the number itself is such a mantissa, and rounding leaves it as it is
  have hcanonical := h.carries
  rw [← hvalue] at hcanonical
  rw [hsingle, roundWithAccuracy_congr hcarries hcanonical (toRat_pos hunits),
    h.roundWithAccuracy]

end Decimal

end DynamicRange
