import DynamicRange.Proofs.Scalar.Value

/-!
# Values of single-precision numbers

What the conversions between single precision, double precision, integers and bits do to the value,
and by how much the arithmetic of single precision is off. The error is told by a power of two that
the exact result stays below.

## Key results

- `add_near`, `sub_near`, `mul_near`, `div_near`: the arithmetic
- `ofNat_rounds`, `ofNat_exact`, `ofNat_exact_double`, `ofInt_rounds`, `ofInt_exact`: integers
- `widen_exact`, `narrow_rounds`: passing between precisions
- `sqrt_mem`: square roots
-/

namespace DynamicRange.Binary

open Float.Model (UnpackedFloat)
open Float.Model.UnpackedFloat

variable {x y z : Float32} {s : Sign} {m : ℕ} {e k : ℤ} {v : ℚ}

/-- A number is not NaN. -/
theorem Finite.isNaN_eq_false (hx : Finite x) : x.isNaN = false := by
  have hfinite : (unpacked x).isFinite = true := hx
  show (unpacked x).isNaN = false
  cases hu : unpacked x with
  | notANumber =>
    rw [hu] at hfinite
    exact absurd hfinite Bool.false_ne_true
  | infinity s | zero s | finite s m e hm => rfl

/-! ### Arithmetic -/

/-- What a power of two of the format bounds does not overflow when it is rounded. -/
theorem nearest_lt_overflow (h : |v| ≤ 2 ^ k) (hk : -125 ≤ k ∧ k ≤ 127) :
    |nearest .binary32 v| < 2 ^ overflow .binary32 := by
  have hmin : Float.Model.Format.binary32.minExponent = -149 := rfl
  have hmax : overflow .binary32 = 128 := rfl
  exact abs_nearest_lt_overflow h (by omega) (by omega)

/-- What is between zero and one does not overflow. -/
theorem nearest_lt_overflow_of_unit (hge : 0 ≤ v) (hle : v ≤ 1) :
    |nearest .binary32 v| < 2 ^ overflow .binary32 := by
  have habs : |v| ≤ 2 ^ (0 : ℤ) := by rwa [abs_of_nonneg hge, zpow_zero]
  exact nearest_lt_overflow habs (by decide)

/-- Rounding moves a number by at most half of a unit of the binade that bounds it. -/
theorem nearest_near (hv : |v| ≤ 2 ^ k) (hk : -125 ≤ k) :
    |nearest .binary32 v - v| ≤ 2 ^ (k - 25) := by
  have hmin : Float.Model.Format.binary32.minExponent = -149 := rfl
  have hbits : (Float.Model.Format.binary32.mantissaBits : ℤ) = 24 := rfl
  have hle := abs_nearest_sub_le (f := .binary32) hv (by omega)
  rwa [hbits, sub_sub] at hle

/-- A result is off by at most half of a unit of the binade that bounds the exact one. -/
theorem Rounds.near (h : Rounds z v) (hv : |v| ≤ 2 ^ k) (hk : -125 ≤ k) :
    |value z - v| ≤ 2 ^ (k - 25) :=
  h.value_eq ▸ nearest_near hv hk

/-- A value is moved by a share of itself and half the least number at most. -/
theorem nearest_bounds (hv : 0 ≤ v) :
    v * (1 - 1 / 2 ^ 24) - 2 ^ (-150 : ℤ) ≤ nearest .binary32 v ∧
      nearest .binary32 v ≤ v * (1 + 1 / 2 ^ 24) + 2 ^ (-150 : ℤ) := by
  have herror : |nearest .binary32 v - v| ≤ |v| / 2 ^ 24 + 2 ^ (-150 : ℤ) :=
    abs_nearest_sub_le_add .binary32 v
  rw [abs_of_nonneg hv, abs_le] at herror
  constructor <;> linarith

section Near

variable (hx : Finite x) (hy : Finite y)
include hx hy

/-- A sum in single precision and its rounding error. -/
theorem add_near (h : |value x + value y| ≤ 2 ^ k) (hk : -125 ≤ k ∧ k ≤ 127) :
    Finite (x + y) ∧ |value (x + y) - (value x + value y)| ≤ 2 ^ (k - 25) :=
  have hrounds := add_rounds hx hy (nearest_lt_overflow h hk)
  ⟨hrounds.finite, hrounds.near h hk.1⟩

/-- A difference in single precision and its rounding error. -/
theorem sub_near (h : |value x - value y| ≤ 2 ^ k) (hk : -125 ≤ k ∧ k ≤ 127) :
    Finite (x - y) ∧ |value (x - y) - (value x - value y)| ≤ 2 ^ (k - 25) :=
  have hrounds := sub_rounds hx hy (nearest_lt_overflow h hk)
  ⟨hrounds.finite, hrounds.near h hk.1⟩

/-- A product in single precision and its rounding error. -/
theorem mul_near (h : |value x * value y| ≤ 2 ^ k) (hk : -125 ≤ k ∧ k ≤ 127) :
    Finite (x * y) ∧ |value (x * y) - value x * value y| ≤ 2 ^ (k - 25) :=
  have hrounds := mul_rounds hx hy (nearest_lt_overflow h hk)
  ⟨hrounds.finite, hrounds.near h hk.1⟩

/-- A quotient in single precision and its rounding error. -/
theorem div_near (hne : value y ≠ 0) (h : |value x / value y| ≤ 2 ^ k)
    (hk : -125 ≤ k ∧ k ≤ 127) :
    Finite (x / y) ∧ |value (x / y) - value x / value y| ≤ 2 ^ (k - 25) :=
  have hrounds := div_rounds hx hy hne (nearest_lt_overflow h hk)
  ⟨hrounds.finite, hrounds.near h hk.1⟩

/-- A product that a power of two bounds. -/
theorem mul_bound (h : |value x * value y| ≤ 2 ^ k) (hk : -149 ≤ k ∧ k ≤ 127) :
    Finite (x * y) ∧ |value (x * y)| ≤ 2 ^ k := by
  have hmin : Float.Model.Format.binary32.minExponent = -149 := rfl
  have hmax : overflow .binary32 = 128 := rfl
  have hrounds := mul_rounds hx hy (abs_nearest_lt_overflow h (by omega) (by omega))
  refine ⟨hrounds.finite, ?_⟩
  rw [hrounds.value_eq]
  exact abs_nearest_le (isNumber_zpow (by omega)) h

end Near

/-- No magnitude is rounded. -/
theorem unpacked_abs (x : Float32) : unpacked x.abs = (unpacked x).abs := by
  have habs : unpacked x.abs = unpack .binary32 (pack .binary32 (unpacked x).abs) := rfl
  by_cases hx : Finite x
  · have hlt := hx.abs_value_lt
    rw [← abs_abs, value, ← toRat_abs] at hlt
    rw [habs, unpack_pack (by decide) hx.isCanonical.abs hlt]
  -- an infinity or a NaN is packed as what it is
  · rw [habs]
    rw [Finite] at hx
    refine unpack_pack_of_not_isFinite ?_
    generalize unpacked x = u at hx ⊢
    cases u with
    | infinity s | notANumber => rfl
    | zero s | finite s m e hm => exact absurd rfl hx

/-- The magnitude of a number is exact. -/
theorem abs_exact (hx : Finite x) : Finite x.abs ∧ value x.abs = |value x| := by
  rw [Finite, value, unpacked_abs]
  exact ⟨hx.isCanonical.abs.isFinite, toRat_abs _⟩

/-- A magnitude is compared as the magnitude of the value. -/
theorem abs_le_iff (hx : Finite x) (hy : Finite y) : x.abs ≤ y ↔ |value x| ≤ value y := by
  obtain ⟨habs, hvalue⟩ := abs_exact hx
  rw [le_iff habs hy, hvalue]

/-- A root lies between two numbers when their squares have its argument between them. -/
theorem sqrt_mem {a b : ℚ} (hx : Finite x) (hpos : 0 < value x) (ha : IsNumber .binary32 a)
    (hb : IsNumber .binary32 b) (hb' : 0 ≤ b) (hlow : a ^ 2 ≤ value x) (hhigh : value x ≤ b ^ 2)
    (ha' : |a| ≤ 2 ^ (127 : ℤ)) (hb'' : b ≤ 2 ^ (127 : ℤ)) :
    Finite x.sqrt ∧ a ≤ value x.sqrt ∧ value x.sqrt ≤ b := by
  have hlt : (2 : ℚ) ^ (127 : ℤ) < 2 ^ overflow .binary32 :=
    zpow_lt_zpow_right₀ one_lt_two (by decide)
  exact sqrt_mem_of_unpacked rfl hx hpos ha hb hb' hlow hhigh
    ((neg_lt_neg hlt).trans_le (abs_le.mp ha').1) (hb''.trans_lt hlt)

/-! ### Precisions -/

/-- A float that is given by its word has the parts of that word. -/
theorem unpacked_ofBits (b : UInt32) : unpacked (Float32.ofBits b) = unpack .binary32 b.toBitVec :=
  @unpack_pack_unpack .binary32 (by decide) b.toBitVec

/-- In double precision every single-precision number is exact. -/
theorem widen_exact (hx : Finite x) :
    Finite (Scalar.widen x) ∧ value (Scalar.widen x) = value x := by
  have hnumber : IsNumber .binary64 (value x) := by
    -- the wider format has a longer mantissa and smaller exponents
    obtain ⟨m, e, hm, he, hvalue⟩ := hx.isNumber
    have hmin : Float.Model.Format.binary32.minExponent = -149 := rfl
    have hmin' : Float.Model.Format.binary64.minExponent = -1074 := rfl
    exact ⟨m, e, hm.trans (by decide), by omega, hvalue⟩
  have hnearest := nearest_of_isNumber hnumber
  obtain ⟨hcanonical, hvalue⟩ := reround_spec (f := .binary64) hx.isCanonical
  have hrounds : Rounds (Scalar.widen x) (value x) := by
    refine rounds_of_unpacked rfl hcanonical hvalue ?_
    rw [hnearest]
    refine hx.abs_value_lt.trans (zpow_lt_zpow_right₀ one_lt_two ?_)
    decide
  exact ⟨hrounds.finite, hrounds.value_eq.trans hnearest⟩

/-- A double-precision number that does not overflow is rounded to the nearest single one. -/
theorem narrow_rounds {a : Float} (ha : Finite a)
    (hlt : |nearest .binary32 (value a)| < 2 ^ overflow .binary32) :
    Rounds (Scalar.narrow a) (value a) := by
  obtain ⟨hcanonical, hvalue⟩ := reround_spec (f := .binary32) ha.isCanonical
  exact rounds_of_unpacked rfl hcanonical hvalue hlt

/-! ### Integers -/

/-- A literal without an exponent is its digits, shifted up by 24 bits and then rounded. -/
private theorem ofScientific_zero {n : ℕ} (hpos : 0 < n) :
    UnpackedFloat.ofScientific .binary32 n 0 =
      roundWithAccuracy .binary32 .positive (n <<< 24) (-24) .exact := by
  have hlarge : ¬(0 : ℤ) > 2 ^ 8 := by decide
  have hsmall : ¬(0 : ℤ) < -((2 ^ 8 : ℤ) + n.log2) := by omega
  have hone : 10 ^ (0 : ℤ).toNat = 1 := rfl
  unfold UnpackedFloat.ofScientific
  rw [dif_neg hpos.ne', if_neg hlarge, if_neg hsmall, if_pos (le_refl (0 : ℤ))]
  show roundWithAccuracy .binary32 .positive (n <<< 24 * 10 ^ (0 : ℤ).toNat) (-24) .exact = _
  rw [hone, mul_one]

/-- A natural number below a power of two of the format does not overflow. -/
private theorem nearest_natCast_lt_overflow {n : ℕ} (hn : n ≤ 2 ^ 127) :
    |nearest .binary32 (n : ℚ)| < 2 ^ overflow .binary32 := by
  refine nearest_lt_overflow (k := 127) ?_ (by decide)
  rw [Nat.abs_cast]
  exact_mod_cast hn

/-- A small natural number is exact, and is multiplied by a power of ten that is one. -/
private theorem ofNat_rounds_of_lt {n : ℕ} (hlt : n < 2 ^ 23) : Rounds (Float32.ofNat n) n := by
  -- below the bits of a mantissa the literal is a word times ten to the zero
  have hmul : Float32.ofNat n = n.toUInt64.toFloat32 * Float32.ofBits 0x3F800000 := by
    show Float32.ofScientific n false 0 = _
    rw [Float32.ofScientific, dif_pos ⟨hlt, by decide⟩]
    rfl
  have hmod : n.toUInt64.toNat = n := by
    show n % 2 ^ 64 = n
    omega
  have hunpack : unpacked n.toUInt64.toFloat32 = unpack .binary32
      (pack .binary32 (UnpackedFloat.normalize .binary32 n 0 .positive)) := by
    show unpack .binary32 (pack .binary32 (UnpackedFloat.ofNat .binary32 n.toUInt64.toNat)) = _
    rw [hmod]
    rfl
  have hparts : unpacked (Float32.ofBits 0x3F800000) =
      .finite .positive (2 ^ 23) (-23) (by decide) := rfl
  obtain ⟨hone, hone'⟩ := value_of_unpacked hparts
  rw [hmul]
  exact rounds_of_normalize_mul hunpack (nearest_natCast_lt_overflow (by omega)) hone
    (hone'.trans (by norm_num [signed]))

/-- A natural number is rounded to the nearest float. -/
theorem ofNat_rounds {n : ℕ} (hn : n ≤ 2 ^ 127) : Rounds (Float32.ofNat n) n := by
  by_cases hlt : n < 2 ^ 23
  · exact ofNat_rounds_of_lt hlt
  · -- a larger one is kept with zeros after it until it is rounded
    have hpos : 0 < n := by omega
    have hshift : (n : ℚ) / (2 : ℚ) ^ (-24 : ℤ) = ((n <<< 24 : ℕ) : ℚ) := by
      rw [Nat.shiftLeft_eq, zpow_neg, div_inv_eq_mul]
      push_cast
      rfl
    have hexponent : (-24 : ℤ) ≤ unitExponent .binary32 n := by
      have hbits : (Float.Model.Format.binary32.mantissaBits : ℤ) = 24 := rfl
      rw [unitExponent, Nat.abs_cast, Int.log_natCast, hbits]
      omega
    have hunpack : unpacked (Float32.ofNat n) = unpack .binary32
        (pack .binary32 (roundWithAccuracy .binary32 .positive (n <<< 24) (-24) .exact)) := by
      show unpacked (Float32.ofScientific n false 0) = _
      rw [Float32.ofScientific, dif_neg fun h => hlt h.1, ← ofScientific_zero hpos]
      rfl
    refine rounds_of_roundWithAccuracy hunpack (by exact_mod_cast hpos) ?_ hexponent
      (nearest_natCast_lt_overflow hn)
    rw [hshift]
    exact Single.represents_exact _

/-- A small natural number is exact. -/
theorem ofNat_exact {n : ℕ} (hn : n ≤ 2 ^ 24) :
    Finite (Float32.ofNat n) ∧ value (Float32.ofNat n) = n :=
  have hrounds := ofNat_rounds (hn.trans (by norm_num))
  ⟨hrounds.finite, hrounds.value_eq.trans (nearest_of_isNumber (isNumber_natCast hn))⟩

/-- A natural number of few bits is exact in double precision. -/
theorem ofNat_exact_double {n : ℕ} (hlt : n < 2 ^ 53) :
    Finite (Float.ofNat n) ∧ value (Float.ofNat n) = n := by
  -- the literal is a word times ten to the zero, as in single precision
  have hmul : Float.ofNat n = n.toUInt64.toFloat * Float.ofBits 0x3FF0000000000000 := by
    show Float.ofScientific n false 0 = _
    rw [Float.ofScientific, dif_pos ⟨hlt, by decide⟩]
    rfl
  have hmod : n.toUInt64.toNat = n := by
    show n % 2 ^ 64 = n
    omega
  have hunpack : unpacked n.toUInt64.toFloat = unpack .binary64
      (pack .binary64 (UnpackedFloat.normalize .binary64 n 0 .positive)) := by
    show unpack .binary64 (pack .binary64 (UnpackedFloat.ofNat .binary64 n.toUInt64.toNat)) = _
    rw [hmod]
    rfl
  have hnearest : nearest .binary64 (n : ℚ) = n := nearest_of_isNumber (isNumber_natCast hlt.le)
  have hbound : |nearest .binary64 (n : ℚ)| < 2 ^ overflow .binary64 := by
    refine abs_nearest_lt_overflow (k := 53) ?_ (by decide) (by decide)
    rw [Nat.abs_cast]
    exact_mod_cast hlt.le
  have hparts : unpacked (Float.ofBits 0x3FF0000000000000) =
      .finite .positive (2 ^ 52) (-52) (by decide) := rfl
  obtain ⟨hone, hone'⟩ := value_of_unpacked hparts
  have hrounds := rounds_of_normalize_mul hunpack hbound hone (hone'.trans (by norm_num [signed]))
  rw [hmul]
  exact ⟨hrounds.finite, hrounds.value_eq.trans hnearest⟩

/-- An integer is rounded to the nearest float. -/
theorem ofInt_rounds {n : ℤ} (hn : |n| ≤ 2 ^ 127) : Rounds (Float32.ofInt n) n := by
  -- a negative integer is the opposite of a rounded natural number
  cases n with
  | ofNat n =>
    rw [Int.ofNat_eq_natCast, Nat.abs_cast] at hn
    exact ofNat_rounds (by exact_mod_cast hn)
  | negSucc n =>
    rw [Int.negSucc_eq, abs_neg] at hn
    have hrounds := ofNat_rounds (n := n + 1) (by exact_mod_cast (le_abs_self _).trans hn)
    obtain ⟨hfinite, hvalue⟩ := neg_exact hrounds.finite
    refine ⟨hfinite, hvalue.trans ?_⟩
    rw [hrounds.value_eq, Int.cast_negSucc, nearest_neg]

/-- A small integer is exact. -/
theorem ofInt_exact {n : ℤ} (hn : |n| ≤ 2 ^ 24) :
    Finite (Float32.ofInt n) ∧ value (Float32.ofInt n) = n :=
  have hrounds := ofInt_rounds (hn.trans (by norm_num))
  ⟨hrounds.finite, hrounds.value_eq.trans (nearest_of_isNumber (isNumber_intCast hn))⟩

end DynamicRange.Binary
