import Mathlib

/-!
# The nearest number of a binary format

A binary format has the multiples of powers of two whose mantissas are short enough. A value that
is none of them is rounded to the nearest one, and to the one with an even mantissa when two are
equally near. The exponent is not bounded above here: what is too large for the format is rounded
as well.

## Key results

- `nearest_spec`: no number of the format is nearer
- `nearest_of_isNumber`, `nearest_mono`: numbers stay, and the order is kept
- `nearest_le`, `le_nearest`: a value is not rounded past a number
- `abs_nearest_sub_le`, `abs_nearest_sub_le_div`: how far a value of given size is moved
- `nearest_le_of_sub_lt`: a value next to a number
- `nearest_zpow_add`, `nearest_zpow_sub`: the middle between a power of two and its neighbours
- `nearest_div_nearest_le`: a rounded difference over a number above one
-/

namespace DynamicRange.Binary

/-! ### Integers -/

/-- The nearest integer, and the even one of two that are equally near. -/
def roundEven (x : ℚ) : ℤ :=
  if x - ⌊x⌋ < 1 / 2 then ⌊x⌋ else if 1 / 2 < x - ⌊x⌋ then ⌊x⌋ + 1 else ⌊x⌋ + ⌊x⌋ % 2

/-- Rounding moves a value by at most a half. -/
theorem abs_roundEven_sub_le (x : ℚ) : |(roundEven x : ℚ) - x| ≤ 1 / 2 := by
  have hle := Int.floor_le x
  have hlt := Int.lt_floor_add_one x
  rw [abs_le, roundEven]
  split
  · constructor <;> linarith
  · split
    · push_cast
      constructor <;> linarith
    · -- the value lies in the middle, and either neighbour will do
      rcases Int.emod_two_eq_zero_or_one ⌊x⌋ with hbit | hbit <;> rw [hbit] <;> push_cast <;>
        constructor <;> linarith

/-- No integer is nearer. -/
theorem abs_roundEven_sub_le_abs (x : ℚ) (n : ℤ) : |(roundEven x : ℚ) - x| ≤ |(n : ℚ) - x| := by
  have hhalf := abs_roundEven_sub_le x
  rcases eq_or_ne n (roundEven x) with rfl | hne
  · exact le_rfl
  -- another integer is at least one away from this one
  have hone : (1 : ℚ) ≤ |(n : ℚ) - roundEven x| := by
    exact_mod_cast Int.one_le_abs (sub_ne_zero.mpr hne)
  have htri : |(n : ℚ) - roundEven x| ≤ |(n : ℚ) - x| + |x - roundEven x| := abs_sub_le ..
  rw [abs_sub_comm x] at htri
  linarith

/-- Rounding does not look at the sign. -/
theorem roundEven_neg (x : ℚ) : roundEven (-x) = -roundEven x := by
  rcases eq_or_ne (⌊x⌋ : ℚ) x with heq | hne
  · -- integers stay
    have hfloor : ⌊-x⌋ = -⌊x⌋ := by rw [← heq, ← Int.cast_neg, Int.floor_intCast, Int.floor_intCast]
    have hzero : x - ⌊x⌋ = 0 := by rw [heq, sub_self]
    have hzero' : -x - ((-⌊x⌋ : ℤ) : ℚ) = 0 := by rw [Int.cast_neg, heq]; ring
    rw [roundEven, roundEven, hfloor, hzero, hzero', if_pos (by norm_num), if_pos (by norm_num)]
  -- otherwise the fraction of the opposite is the rest to one
  · have hlt : (⌊x⌋ : ℚ) < x := lt_of_le_of_ne (Int.floor_le x) hne
    have hlt' := Int.lt_floor_add_one x
    have hfloor : ⌊-x⌋ = -⌊x⌋ - 1 := by
      rw [Int.floor_eq_iff]
      push_cast
      constructor <;> linarith
    have hpart : -x - ((-⌊x⌋ - 1 : ℤ) : ℚ) = 1 - (x - ⌊x⌋) := by
      push_cast
      ring
    rw [roundEven, roundEven, hfloor, hpart]
    split_ifs <;> first | omega | linarith

/-- In the middle of two integers the even one is taken. -/
theorem roundEven_add_half (n : ℤ) : roundEven (n + 1 / 2) = n + n % 2 := by
  have hfloor : ⌊(n : ℚ) + 1 / 2⌋ = n := by
    rw [Int.floor_eq_iff]
    constructor <;> linarith
  have hhalf : (n : ℚ) + 1 / 2 - n = 1 / 2 := add_sub_cancel_left ..
  rw [roundEven, hfloor, hhalf, if_neg (lt_irrefl _), if_neg (lt_irrefl _)]

/-! ### Numbers of a format -/

variable {f : Float.Model.Format} {x v w b : ℚ} {k : ℤ}

/-- The numbers of a format, if its exponents went on upward for ever. -/
def IsNumber (f : Float.Model.Format) (x : ℚ) : Prop :=
  ∃ m e : ℤ, |m| ≤ 2 ^ f.mantissaBits ∧ f.minExponent ≤ e ∧ x = m * 2 ^ e

/-- The least exponent of a format is not positive. -/
theorem minExponent_nonpos (f : Float.Model.Format) : f.minExponent ≤ 0 := by
  have hbits := f.hm
  have hpow : (1 : ℤ) ≤ 2 ^ (f.exponentBits - 1) := one_le_pow₀ (by norm_num)
  rw [Float.Model.Format.minExponent, Float.Model.Format.mantissaBits]
  omega

/-- A mantissa has two bits at least. -/
theorem two_le_mantissaBits (f : Float.Model.Format) : 2 ≤ f.mantissaBits := by
  have hbits := f.hm
  rw [Float.Model.Format.mantissaBits]
  omega

/-- Integers up to a mantissa are numbers of the format. -/
theorem isNumber_intCast {n : ℤ} (h : |n| ≤ 2 ^ f.mantissaBits) : IsNumber f n :=
  ⟨n, 0, h, minExponent_nonpos f, by simp⟩

/-- Natural numbers up to a mantissa are numbers of the format. -/
theorem isNumber_natCast {n : ℕ} (h : n ≤ 2 ^ f.mantissaBits) : IsNumber f n := by
  have hint : |(n : ℤ)| ≤ 2 ^ f.mantissaBits := by
    rw [Nat.abs_cast]
    exact_mod_cast h
  simpa using isNumber_intCast hint

/-- Powers of two from the least exponent on are numbers of the format. -/
theorem isNumber_zpow (h : f.minExponent ≤ k) : IsNumber f (2 ^ k) :=
  ⟨1, k, by simpa using one_le_pow₀ (by norm_num), h, by simp⟩

/-- Zero is a number of every format. -/
theorem isNumber_zero : IsNumber f 0 := by
  simpa using isNumber_intCast (f := f) (n := 0) (by simp)

/-- One is a number of every format. -/
theorem isNumber_one : IsNumber f 1 := by
  simpa using isNumber_zpow (minExponent_nonpos f)

/-- A number is a multiple of every power of two up to its exponent. -/
private theorem exists_multiple {m e j : ℤ} (h : j ≤ e) : ∃ n : ℤ, (m * 2 ^ e : ℚ) = n * 2 ^ j := by
  obtain ⟨k, hk⟩ := Int.eq_ofNat_of_zero_le (sub_nonneg.mpr h)
  have he : e = k + j := by omega
  refine ⟨m * 2 ^ k, ?_⟩
  rw [he, zpow_add₀ two_ne_zero, zpow_natCast]
  push_cast
  ring

/-- All numbers are multiples of the least one. -/
theorem IsNumber.exists_units (h : IsNumber f x) : ∃ n : ℤ, x = n * 2 ^ f.minExponent := by
  obtain ⟨m, e, -, he, rfl⟩ := h
  exact exists_multiple he

/-- A small difference of numbers is a number. -/
theorem IsNumber.sub_of_le {y : ℚ} (hx : IsNumber f x) (hy : IsNumber f y)
    (h : |x - y| ≤ 2 ^ (f.minExponent + f.mantissaBits)) : IsNumber f (x - y) := by
  obtain ⟨m, rfl⟩ := hx.exists_units
  obtain ⟨n, rfl⟩ := hy.exists_units
  have hpos : (0 : ℚ) < 2 ^ f.minExponent := zpow_pos two_pos _
  refine ⟨m - n, f.minExponent, ?_, le_rfl, by push_cast; ring⟩
  rw [← sub_mul, abs_mul, abs_of_pos hpos, add_comm, zpow_add₀ two_ne_zero, zpow_natCast] at h
  exact_mod_cast le_of_mul_le_mul_right h hpos

/-- The least number above one. -/
theorem IsNumber.one_add_le (h : IsNumber f x) (hlt : 1 < x) : 1 + 2 / 2 ^ f.mantissaBits ≤ x := by
  obtain ⟨m, e, hm, -, rfl⟩ := h
  have hbits : 1 ≤ f.mantissaBits := Nat.le_add_right ..
  have hunit : (2 : ℚ) ^ (1 - f.mantissaBits : ℤ) = 2 / 2 ^ f.mantissaBits := by
    rw [zpow_sub₀ two_ne_zero, zpow_one, zpow_natCast]
  have hm' : (m : ℚ) ≤ 2 ^ (f.mantissaBits : ℤ) := by
    rw [zpow_natCast]
    exact_mod_cast (le_abs_self m).trans hm
  -- with a smaller exponent it would not be above one
  have he : 1 - (f.mantissaBits : ℤ) ≤ e := by
    by_contra! hlow
    have hle : (m : ℚ) * 2 ^ e ≤ 2 ^ (f.mantissaBits + e : ℤ) := by
      rw [zpow_add₀ two_ne_zero]
      exact mul_le_mul_of_nonneg_right hm' (zpow_nonneg two_pos.le e)
    exact absurd hlt (not_lt.mpr (hle.trans (zpow_le_one_of_nonpos₀ one_le_two (by omega))))
  -- so the number and one are multiples of one unit, of which there is one more at least
  obtain ⟨n, hn⟩ := exists_multiple (m := m) he
  have hone : (1 : ℚ) = (2 ^ (f.mantissaBits - 1) : ℤ) * 2 ^ (1 - f.mantissaBits : ℤ) := by
    push_cast
    rw [← zpow_natCast, ← zpow_add₀ two_ne_zero, Nat.cast_sub hbits]
    norm_num
  have hpos : (0 : ℚ) < 2 ^ (1 - f.mantissaBits : ℤ) := zpow_pos two_pos _
  rw [hn, ← hunit]
  rw [hn] at hlt
  nth_rewrite 1 [hone] at hlt ⊢
  have hlt' : 2 ^ (f.mantissaBits - 1) < n := by exact_mod_cast lt_of_mul_lt_mul_right hlt hpos.le
  have hle : ((2 ^ (f.mantissaBits - 1) : ℤ) : ℚ) + 1 ≤ n := by exact_mod_cast hlt'
  rw [← add_one_mul]
  exact mul_le_mul_of_nonneg_right hle hpos.le

/-- A multiple of a unit is apart from the smaller ones by that unit. -/
private theorem unit_le_sub {m e k j : ℤ} (hj : e ≤ j) (hlt : (k * 2 ^ j : ℚ) < m * 2 ^ e) :
    2 ^ e ≤ (m * 2 ^ e - k * 2 ^ j : ℚ) := by
  have hunit : (0 : ℚ) < 2 ^ e := zpow_pos two_pos e
  obtain ⟨i, hi⟩ := exists_multiple (m := k) hj
  rw [hi] at hlt ⊢
  have hlt' : i + 1 ≤ m := by exact_mod_cast lt_of_mul_lt_mul_right hlt hunit.le
  have hone : (1 : ℚ) ≤ m - i := by
    rw [le_sub_iff_add_le']
    exact_mod_cast hlt'
  rw [← sub_mul]
  exact le_mul_of_one_le_left hunit.le hone

/-- Two numbers are apart by the least one at least. -/
theorem IsNumber.le_sub {y : ℚ} (hx : IsNumber f x) (hy : IsNumber f y) (hlt : x < y) :
    2 ^ f.minExponent ≤ y - x := by
  obtain ⟨m, rfl⟩ := hx.exists_units
  obtain ⟨n, rfl⟩ := hy.exists_units
  exact unit_le_sub le_rfl hlt

/-- A number above a power of two is apart from what is not above it by its unit, or by half of
itself. -/
private theorem gap_of_power_between {m e j : ℤ} {y : ℚ} (hlong : (2 : ℚ) ^ j < m * 2 ^ e)
    (hy : y ≤ 2 ^ j) : 2 ^ e ≤ m * 2 ^ e - y ∨ (m * 2 ^ e : ℚ) / 2 ≤ m * 2 ^ e - y := by
  rcases le_or_gt e j with hle | hgt
  · have hpower : (2 : ℚ) ^ j = ((1 : ℤ) : ℚ) * 2 ^ j := by rw [Int.cast_one, one_mul]
    rw [hpower] at hlong hy
    exact .inl ((unit_le_sub hle hlong).trans (sub_le_sub_left hy _))
  -- the exponent is above the power, so the power is at most half of the number
  · have hunit : (0 : ℚ) < 2 ^ e := zpow_pos two_pos e
    have hm : 0 < m := by
      exact_mod_cast pos_of_mul_pos_left ((zpow_pos two_pos j).trans hlong) hunit.le
    have hge : (2 : ℚ) ^ e ≤ m * 2 ^ e := le_mul_of_one_le_left hunit.le (by exact_mod_cast hm)
    have hhalf : (2 : ℚ) ^ j * 2 ≤ 2 ^ e := by
      rw [← zpow_add_one₀ two_ne_zero]
      exact zpow_le_zpow_right₀ one_le_two hgt
    right
    linarith

/-- A number is apart from all smaller ones by a share of itself. -/
theorem IsNumber.div_le_sub {y : ℚ} (hx : IsNumber f x) (hy : IsNumber f y) (hlt : y < x) :
    x / 2 ^ f.mantissaBits ≤ x - y := by
  rcases le_or_gt x 0 with hneg | hpos
  · exact (div_nonpos_of_nonpos_of_nonneg hneg (by positivity)).trans (sub_pos.mpr hlt).le
  obtain ⟨m, e, hm, -, rfl⟩ := hx
  obtain ⟨n, g, hn, -, rfl⟩ := hy
  -- mantissas are at most `P`, a power of two
  obtain ⟨P, hP⟩ : ∃ P : ℚ, 2 ^ f.mantissaBits = P := ⟨_, rfl⟩
  have hm : (m : ℚ) ≤ P := hP ▸ by exact_mod_cast (le_abs_self m).trans hm
  have hn : (n : ℚ) ≤ P := hP ▸ by exact_mod_cast (le_abs_self n).trans hn
  have hPpos : 0 < P := hP ▸ by positivity
  have hx_le : (m : ℚ) * 2 ^ e ≤ P * 2 ^ e := mul_le_mul_of_nonneg_right hm (zpow_pos two_pos e).le
  have hy_le : (n : ℚ) * 2 ^ g ≤ P * 2 ^ g := mul_le_mul_of_nonneg_right hn (zpow_pos two_pos g).le
  rw [hP, div_le_iff₀' hPpos]
  rcases le_or_gt e g with hle | hgt
  · exact hx_le.trans (mul_le_mul_of_nonneg_left (unit_le_sub hle hlt) hPpos.le)
  -- in the smaller unit the mantissa of `x` may be too long
  rcases le_or_gt (m * 2 ^ e : ℚ) (P * 2 ^ g) with hshort | hlong
  · obtain ⟨k, hk⟩ := exists_multiple (m := m) hgt.le
    rw [hk] at hlt hshort ⊢
    exact hshort.trans (mul_le_mul_of_nonneg_left (unit_le_sub le_rfl hlt) hPpos.le)
  · -- then a power of two is between `y` and `x`
    have hpower : P * 2 ^ g = (2 : ℚ) ^ (f.mantissaBits + g : ℤ) := by
      rw [← hP, zpow_add₀ two_ne_zero, zpow_natCast]
    rw [hpower] at hlong hy_le
    rcases gap_of_power_between hlong hy_le with hgap | hgap
    · exact hx_le.trans (mul_le_mul_of_nonneg_left hgap hPpos.le)
    · have htwo : 2 ≤ P := by
        rw [← hP]
        exact le_self_pow₀ one_le_two (Nat.one_le_iff_ne_zero.mp (Nat.le_add_right ..))
      have hscaled := mul_le_mul htwo hgap (by linarith) hPpos.le
      linarith

/-- The opposite of a number of a format is one too. -/
theorem IsNumber.neg (h : IsNumber f x) : IsNumber f (-x) := by
  obtain ⟨m, e, hm, he, rfl⟩ := h
  exact ⟨-m, e, by rwa [abs_neg], he, by push_cast; ring⟩

/-! ### Rounding -/

/-- The exponent that a value is rounded to: its mantissa gets as many bits as there are, unless
that takes more than the least exponent. -/
def unitExponent (f : Float.Model.Format) (v : ℚ) : ℤ :=
  max (Int.log 2 |v| + 1 - f.mantissaBits) f.minExponent

/-- The nearest number of a format. -/
def nearest (f : Float.Model.Format) (v : ℚ) : ℚ :=
  roundEven (v / 2 ^ unitExponent f v) * 2 ^ unitExponent f v

/-- The unit of a value is positive. -/
private theorem unit_pos (f : Float.Model.Format) (v : ℚ) : (0 : ℚ) < 2 ^ unitExponent f v :=
  zpow_pos two_pos _

/-- A magnitude is below the power of two after its own. -/
private theorem lt_zpow_log_add_one (v : ℚ) : |v| < 2 ^ (Int.log 2 |v| + 1) := by
  simpa using Int.lt_zpow_succ_log_self one_lt_two |v|

/-- A magnitude is at least its own power of two. -/
private theorem zpow_log_le (hv : v ≠ 0) : (2 : ℚ) ^ Int.log 2 |v| ≤ |v| := by
  simpa using Int.zpow_log_le_self one_lt_two (abs_pos.mpr hv)

/-- The unit of a value between a power of two and the next. -/
theorem unitExponent_of_mem (hlo : 2 ^ k ≤ v) (hhi : v < 2 ^ (k + 1))
    (hk : f.minExponent ≤ k + 1 - f.mantissaBits) : unitExponent f v = k + 1 - f.mantissaBits := by
  have hpos : 0 < v := (zpow_pos two_pos k).trans_le hlo
  have hlog : Int.log 2 v = k := by
    refine le_antisymm (Int.lt_add_one_iff.mp ?_) ?_
    · rw [← Int.lt_zpow_iff_log_lt one_lt_two hpos]
      exact_mod_cast hhi
    · rw [← Int.zpow_le_iff_le_log one_lt_two hpos]
      exact_mod_cast hlo
  rw [unitExponent, abs_of_pos hpos, hlog, max_eq_left hk]

/-- Rounding to a format does not look at the sign. -/
theorem nearest_neg (f : Float.Model.Format) (v : ℚ) : nearest f (-v) = -nearest f v := by
  have hunit : unitExponent f (-v) = unitExponent f v := by rw [unitExponent, abs_neg, unitExponent]
  rw [nearest, nearest, hunit, neg_div, roundEven_neg]
  push_cast
  ring

/-- In units of its exponent a value has at most the bits of a mantissa. -/
private theorem abs_div_unit_le (f : Float.Model.Format) (v : ℚ) :
    |v / 2 ^ unitExponent f v| ≤ 2 ^ f.mantissaBits := by
  rw [abs_div, abs_of_pos (unit_pos f v), div_le_iff₀ (unit_pos f v), ← zpow_natCast,
    ← zpow_add₀ two_ne_zero]
  refine (lt_zpow_log_add_one v).le.trans (zpow_le_zpow_right₀ one_le_two ?_)
  rw [unitExponent]
  omega

/-- The bound on the value is an integer, so it bounds the nearest integer as well. -/
theorem abs_roundEven_unit_le (f : Float.Model.Format) (v : ℚ) :
    |roundEven (v / 2 ^ unitExponent f v)| ≤ 2 ^ f.mantissaBits := by
  have hclose := abs_roundEven_sub_le (v / 2 ^ unitExponent f v)
  have hle := abs_div_unit_le f v
  have hround : |(roundEven (v / 2 ^ unitExponent f v) : ℚ)| < 2 ^ f.mantissaBits + 1 := by
    have htri := abs_sub_abs_le_abs_sub (roundEven (v / 2 ^ unitExponent f v) : ℚ)
      (v / 2 ^ unitExponent f v)
    linarith
  exact Int.lt_add_one_iff.mp (by exact_mod_cast hround)

/-- Above the least exponent the nearest integer has all the bits of a mantissa. -/
theorem le_roundEven_unit (hv : 0 < v) (h : f.minExponent < unitExponent f v) :
    -- above the least exponent the unit is that of the binade of the value
    2 ^ f.mantissaBitsWithoutImplicit ≤ roundEven (v / 2 ^ unitExponent f v) := by
  have hunit : unitExponent f v = Int.log 2 v - f.mantissaBitsWithoutImplicit := by
    rw [unitExponent, abs_of_pos hv, Float.Model.Format.mantissaBits] at h ⊢
    push_cast at h ⊢
    omega
  have hle : (2 : ℚ) ^ f.mantissaBitsWithoutImplicit ≤ v / 2 ^ unitExponent f v := by
    have hlog := zpow_log_le hv.ne'
    rw [abs_of_pos hv] at hlog
    rw [le_div_iff₀ (unit_pos f v), ← zpow_natCast, ← zpow_add₀ two_ne_zero, hunit]
    rwa [add_sub_cancel]
  have hclose := (abs_le.mp (abs_roundEven_sub_le (v / 2 ^ unitExponent f v))).1
  have hround : (2 : ℚ) ^ f.mantissaBitsWithoutImplicit <
      roundEven (v / 2 ^ unitExponent f v) + 1 := by linarith
  exact Int.lt_add_one_iff.mp (by exact_mod_cast hround)

/-- What comes out of rounding is a number of the format. -/
theorem isNumber_nearest (f : Float.Model.Format) (v : ℚ) : IsNumber f (nearest f v) :=
  ⟨roundEven (v / 2 ^ unitExponent f v), unitExponent f v, abs_roundEven_unit_le f v,
    le_max_right .., rfl⟩

/-- Half a unit is the most that a value is moved by. -/
theorem abs_nearest_sub_le_unit (f : Float.Model.Format) (v : ℚ) :
    |nearest f v - v| ≤ 2 ^ unitExponent f v / 2 := by
  have hunit := unit_pos f v
  have heq : nearest f v - v =
      (roundEven (v / 2 ^ unitExponent f v) - v / 2 ^ unitExponent f v) *
        2 ^ unitExponent f v := by
    rw [sub_mul, div_mul_cancel₀ _ hunit.ne', nearest]
  -- in units of its exponent the value is moved by a half
  rw [heq, abs_mul, abs_of_pos hunit]
  have hhalf := abs_roundEven_sub_le (v / 2 ^ unitExponent f v)
  nlinarith

/-- A multiple of the unit is not nearer. -/
private theorem abs_nearest_sub_le_multiple (f : Float.Model.Format) (v : ℚ) (n : ℤ) :
    |nearest f v - v| ≤ |n * 2 ^ unitExponent f v - v| := by
  have hunit := unit_pos f v
  have hfactor (y : ℚ) : |y * 2 ^ unitExponent f v - v| =
      |y - v / 2 ^ unitExponent f v| * 2 ^ unitExponent f v := by
    rw [← abs_of_pos hunit, ← abs_mul, abs_of_pos hunit, sub_mul, div_mul_cancel₀ _ hunit.ne']
  rw [nearest, hfactor, hfactor]
  exact mul_le_mul_of_nonneg_right (abs_roundEven_sub_le_abs _ n) hunit.le

/-- A number with an exponent below the unit is smaller than every value with that unit. -/
private theorem abs_le_of_lt_unit {m e : ℤ} (hm : |m| ≤ 2 ^ f.mantissaBits)
    (he : f.minExponent ≤ e) (hlt : e < unitExponent f v) (hv : v ≠ 0) :
    |(m * 2 ^ e : ℚ)| ≤ 2 ^ (unitExponent f v + f.mantissaBits - 1) ∧
      (2 : ℚ) ^ (unitExponent f v + f.mantissaBits - 1) ≤ |v| := by
  have hunit : unitExponent f v = Int.log 2 |v| + 1 - f.mantissaBits := by
    rw [unitExponent] at hlt ⊢
    omega
  constructor
  · have hm' : |(m : ℚ)| ≤ 2 ^ (f.mantissaBits : ℤ) := by
      rw [zpow_natCast]
      exact_mod_cast hm
    rw [abs_mul, abs_of_pos (zpow_pos (two_pos (α := ℚ)) e)]
    calc |(m : ℚ)| * 2 ^ e ≤ 2 ^ (f.mantissaBits : ℤ) * 2 ^ e :=
          mul_le_mul_of_nonneg_right hm' (zpow_nonneg two_pos.le e)
      _ = 2 ^ (f.mantissaBits + e : ℤ) := (zpow_add₀ two_ne_zero ..).symm
      _ ≤ 2 ^ (unitExponent f v + f.mantissaBits - 1) :=
          zpow_le_zpow_right₀ one_le_two (by omega)
  · have hexponent : unitExponent f v + f.mantissaBits - 1 = Int.log 2 |v| := by omega
    rw [hexponent]
    exact zpow_log_le hv

/-- No number of the format is nearer. -/
theorem nearest_spec (h : IsNumber f x) (v : ℚ) : |nearest f v - v| ≤ |x - v| := by
  rcases eq_or_ne v 0 with rfl | hv
  · have hzero : nearest f 0 = 0 := by simp [nearest, roundEven]
    rw [hzero, sub_self, abs_zero]
    exact abs_nonneg _
  obtain ⟨m, e, hm, he, rfl⟩ := h
  rcases lt_or_ge e (unitExponent f v) with hlt | hge
  · -- between such a number and the value there is a power of two, a multiple of the unit
    obtain ⟨hsmall, hlarge⟩ := abs_le_of_lt_unit hm he hlt hv
    have hbits : 1 ≤ f.mantissaBits := Nat.le_add_right ..
    set p : ℚ := 2 ^ (unitExponent f v + f.mantissaBits - 1)
    have hpower : ∃ n : ℤ, (n : ℚ) * 2 ^ unitExponent f v = p := by
      refine ⟨2 ^ (f.mantissaBits - 1), ?_⟩
      push_cast
      rw [← zpow_natCast, ← zpow_add₀ two_ne_zero, Nat.cast_sub hbits]
      congr 1
      push_cast
      ring
    obtain ⟨n, hn⟩ := hpower
    -- the power is taken with the sign of the value
    rcases abs_cases v with ⟨habs, -⟩ | ⟨habs, -⟩
    · refine (abs_nearest_sub_le_multiple f v n).trans ?_
      rw [hn, abs_sub_comm, abs_sub_comm (m * 2 ^ e : ℚ), abs_of_nonneg (by linarith),
        abs_of_nonneg (by linarith [le_abs_self (m * 2 ^ e : ℚ)])]
      linarith [le_abs_self (m * 2 ^ e : ℚ)]
    · refine (abs_nearest_sub_le_multiple f v (-n)).trans ?_
      have hneg : ((-n : ℤ) : ℚ) * 2 ^ unitExponent f v = -p := by
        rw [← hn]
        push_cast
        ring
      rw [hneg, abs_of_nonneg (by linarith),
        abs_of_nonneg (by linarith [neg_abs_le (m * 2 ^ e : ℚ)])]
      linarith [neg_abs_le (m * 2 ^ e : ℚ)]
  · -- any other number is a multiple of the unit
    have hmultiple : (m * 2 ^ e : ℚ) =
        ((m * 2 ^ (e - unitExponent f v).toNat : ℤ) : ℚ) * 2 ^ unitExponent f v := by
      have hsub : ((e - unitExponent f v).toNat : ℤ) = e - unitExponent f v := by omega
      push_cast
      rw [mul_assoc, ← zpow_natCast, hsub, ← zpow_add₀ two_ne_zero, sub_add_cancel]
    rw [hmultiple]
    exact abs_nearest_sub_le_multiple f v _

/-! ### Laws of rounding -/

/-- A number of the format is rounded to itself. -/
theorem nearest_of_isNumber (h : IsNumber f x) : nearest f x = x := by
  have hle := nearest_spec h x
  rw [sub_self, abs_zero, abs_nonpos_iff, sub_eq_zero] at hle
  exact hle

/-- Rounding keeps the order: of two values that changed places each would have to be nearer to
what the other is rounded to. -/
theorem nearest_mono (h : v ≤ w) : nearest f v ≤ nearest f w := by
  rcases h.eq_or_lt with rfl | hlt
  · exact le_rfl
  by_contra! hgt
  have hv := sq_le_sq.mpr (nearest_spec (isNumber_nearest f w) v)
  have hw := sq_le_sq.mpr (nearest_spec (isNumber_nearest f v) w)
  -- both values would lie beyond the middle of what they are rounded to
  have hmiddle : nearest f v + nearest f w ≤ 2 * v := by nlinarith
  have hmiddle' : 2 * w ≤ nearest f v + nearest f w := by nlinarith
  linarith

/-- Rounding does not go above a number of the format that the value is not above. -/
theorem nearest_le (hb : IsNumber f b) (h : v ≤ b) : nearest f v ≤ b :=
  (nearest_mono h).trans_eq (nearest_of_isNumber hb)

/-- Rounding does not go below a number of the format that the value is not below. -/
theorem le_nearest (hb : IsNumber f b) (h : b ≤ v) : b ≤ nearest f v :=
  (nearest_of_isNumber hb).ge.trans (nearest_mono h)

/-- A value that is above a negative number by less than half the gap is rounded to it or below. -/
theorem nearest_le_of_sub_lt (hx : IsNumber f x) (h : v - x < -x / 2 ^ f.mantissaBits / 2) :
    nearest f v ≤ x := by
  -- the next number above `x` is farther from the value than `x` is
  by_contra! hlt
  have hgap := hx.neg.div_le_sub (isNumber_nearest f v).neg (neg_lt_neg hlt)
  have hnear := nearest_spec hx v
  have hgt : x < v := lt_of_not_ge fun hle => hlt.not_ge (nearest_le hx hle)
  rw [abs_sub_comm x, abs_of_pos (sub_pos.mpr hgt)] at hnear
  have habove := (abs_le.mp hnear).2
  linarith

/-- A value of smaller magnitude is rounded to a number of smaller magnitude. -/
theorem abs_nearest_mono (h : |v| ≤ w) : |nearest f v| ≤ nearest f w := by
  rw [abs_le, ← nearest_neg]
  exact ⟨nearest_mono (abs_le.mp h).1, nearest_mono (abs_le.mp h).2⟩

/-- Rounding does not go beyond a number of the format in magnitude. -/
theorem abs_nearest_le (hb : IsNumber f b) (h : |v| ≤ b) : |nearest f v| ≤ b :=
  (abs_nearest_mono h).trans_eq (nearest_of_isNumber hb)

/-- A value up to a power of two is moved by at most half a unit of the values below that power. -/
theorem abs_nearest_sub_le (h : |v| ≤ 2 ^ k) (hk : f.minExponent ≤ k - f.mantissaBits) :
    |nearest f v - v| ≤ 2 ^ (k - f.mantissaBits - 1) := by
  have hpos : (0 : ℚ) < 2 ^ (k - f.mantissaBits - 1) := zpow_pos two_pos _
  rcases h.eq_or_lt with heq | hlt
  · -- the power itself is a number
    have hnumber : IsNumber f |v| := heq ▸ isNumber_zpow (by omega)
    have hv : IsNumber f v := by
      rcases abs_choice v with habs | habs
      · rwa [habs] at hnumber
      · have := hnumber.neg
        rwa [habs, neg_neg] at this
    rw [nearest_of_isNumber hv, sub_self, abs_zero]
    exact hpos.le
  -- below the power, the unit of the value is at most that of the last binade
  · rcases eq_or_ne v 0 with rfl | hv
    · rw [nearest_of_isNumber isNumber_zero, sub_self, abs_zero]
      exact hpos.le
    have hlog : Int.log 2 |v| < k := by
      rw [← Int.lt_zpow_iff_log_lt one_lt_two (abs_pos.mpr hv)]
      simpa using hlt
    refine (abs_nearest_sub_le_unit f v).trans ?_
    rw [div_le_iff₀ two_pos, ← zpow_add_one₀ two_ne_zero]
    refine zpow_le_zpow_right₀ one_le_two ?_
    rw [unitExponent]
    omega

/-- Where the mantissa has all its bits, a value is moved by a share of itself. It is half a unit in
the last place, or less next to a power of two, which is a number itself. -/
theorem abs_nearest_sub_le_div (h : 2 ^ (f.minExponent + f.mantissaBits - 1) ≤ |v|) :
    |nearest f v - v| ≤ |v| / (2 ^ f.mantissaBits + 1) := by
  -- rounding and magnitude go along with the sign, so the value may be taken positive
  wlog hpos : 0 < v generalizing v
  · have hne : v ≠ 0 := by
      rintro rfl
      exact absurd h (by rw [abs_zero, not_le]; exact zpow_pos two_pos _)
    have hneg := this (v := -v) (by rwa [abs_neg])
      (neg_pos.mpr (lt_of_le_of_ne (not_lt.mp hpos) hne))
    rwa [nearest_neg, ← neg_sub_neg, neg_neg, neg_neg, abs_sub_comm, abs_neg] at hneg
  rw [abs_of_pos hpos] at h ⊢
  obtain ⟨e, he⟩ : ∃ e, Int.log 2 v = e := ⟨_, rfl⟩
  have hlow : (2 : ℚ) ^ e ≤ v := by
    rw [← he]
    simpa [abs_of_pos hpos] using zpow_log_le hpos.ne'
  have hhigh : v < 2 ^ (e + 1) := by
    rw [← he]
    simpa [abs_of_pos hpos] using lt_zpow_log_add_one v
  have hexponent : f.minExponent + f.mantissaBits - 1 ≤ e := by
    have hlt := (zpow_lt_zpow_iff_right₀ (one_lt_two (α := ℚ))).mp (h.trans_lt hhigh)
    omega
  have hbits : 1 ≤ f.mantissaBits := Nat.le_add_right ..
  -- the mantissa has all its bits, so the unit is that of the binade
  have hunit : unitExponent f v = e + 1 - f.mantissaBits := by
    rw [unitExponent, abs_of_pos hpos, he]
    omega
  have hpower : (2 : ℚ) ^ (e - f.mantissaBits) * 2 ^ f.mantissaBits = 2 ^ e := by
    rw [← zpow_natCast, ← zpow_add₀ two_ne_zero, sub_add_cancel]
  have hhalf : |nearest f v - v| ≤ 2 ^ (e - f.mantissaBits) := by
    have hle := abs_nearest_sub_le_unit f v
    rwa [hunit, add_sub_right_comm, zpow_add_one₀ two_ne_zero, mul_div_cancel_right₀ _ two_ne_zero]
      at hle
  have hden : (0 : ℚ) < 2 ^ f.mantissaBits + 1 := by positivity
  rw [le_div_iff₀ hden]
  -- half a unit is a small share of the value, unless the value is next to a power of two
  rcases le_total (2 ^ e + 2 ^ (e - f.mantissaBits)) v with hfar | hnear
  · refine (mul_le_mul_of_nonneg_right hhalf hden.le).trans ?_
    rw [mul_add, hpower, mul_one]
    exact hfar
  · -- the power of two below is near enough
    have hspec := nearest_spec (isNumber_zpow (f := f) (k := e) (by omega)) v
    rw [abs_sub_comm (2 ^ e) v, abs_of_nonneg (sub_nonneg.mpr hlow)] at hspec
    refine (mul_le_mul_of_nonneg_right hspec hden.le).trans ?_
    have hscaled := mul_le_mul_of_nonneg_right hnear (by positivity : (0 : ℚ) ≤ 2 ^ f.mantissaBits)
    rw [add_mul, hpower] at hscaled
    linarith

/-- A value of any size is moved by a share of itself and half the least number. -/
theorem abs_nearest_sub_le_add (f : Float.Model.Format) (v : ℚ) :
    |nearest f v - v| ≤ |v| / 2 ^ f.mantissaBits + 2 ^ (f.minExponent - 1) := by
  -- either the mantissa has all its bits, or the unit is the least number
  rcases le_total (2 ^ (f.minExponent + f.mantissaBits - 1)) |v| with hnormal | hsmall
  · refine (abs_nearest_sub_le_div hnormal).trans ?_
    have hshare : |v| / (2 ^ f.mantissaBits + 1) ≤ |v| / 2 ^ f.mantissaBits := by
      gcongr
      exact le_add_of_nonneg_right zero_le_one
    exact hshare.trans (le_add_of_nonneg_right (zpow_pos two_pos _).le)
  · have hle : |v| ≤ 2 ^ (f.minExponent + f.mantissaBits : ℤ) :=
      hsmall.trans (zpow_le_zpow_right₀ one_le_two (by omega))
    refine (abs_nearest_sub_le hle (by omega)).trans ?_
    rw [add_sub_cancel_right]
    exact le_add_of_nonneg_left (by positivity)

/-- In the middle of two numbers the even mantissa is taken. -/
theorem nearest_middle {n e : ℤ} (hv : v = (n + 1 / 2) * 2 ^ e) (he : unitExponent f v = e) :
    nearest f v = (n + n % 2 : ℤ) * 2 ^ e := by
  have hunits : v / 2 ^ e = n + 1 / 2 := by
    rw [hv, mul_div_cancel_right₀ _ (zpow_ne_zero e two_ne_zero)]
  rw [nearest, he, hunits, roundEven_add_half]

/-- A power of two has an even mantissa, so the middle above it is rounded to it. -/
theorem nearest_zpow_add (hk : f.minExponent ≤ k + 1 - f.mantissaBits) :
    nearest f (2 ^ k + 2 ^ (k - f.mantissaBits)) = 2 ^ k := by
  have hbits := two_le_mantissaBits f
  have hpower : (2 : ℚ) ^ k = 2 ^ (f.mantissaBits - 1) * 2 ^ (k + 1 - f.mantissaBits) := by
    rw [← zpow_natCast, ← zpow_add₀ two_ne_zero, Nat.cast_sub (by omega)]
    congr 1
    push_cast
    ring
  have hhalf : (2 : ℚ) ^ (k - f.mantissaBits) = 1 / 2 * 2 ^ (k + 1 - f.mantissaBits) := by
    rw [add_sub_right_comm, zpow_add_one₀ two_ne_zero]
    ring
  have hmiddle : (2 : ℚ) ^ k + 2 ^ (k - f.mantissaBits) =
      ((2 ^ (f.mantissaBits - 1) : ℤ) + 1 / 2) * 2 ^ (k + 1 - f.mantissaBits) := by
    rw [add_mul, hpower, hhalf]
    push_cast
    rfl
  have heven : (2 : ℤ) ^ (f.mantissaBits - 1) % 2 = 0 :=
    Int.emod_eq_zero_of_dvd (dvd_pow_self 2 (by omega))
  have hsmall : (2 : ℚ) ^ (k - f.mantissaBits) < 2 ^ k :=
    zpow_lt_zpow_right₀ one_lt_two (by omega)
  -- a half unit above the power does not leave its binade
  have hunit : unitExponent f (2 ^ k + 2 ^ (k - f.mantissaBits)) = k + 1 - f.mantissaBits := by
    refine unitExponent_of_mem (le_add_of_nonneg_right (zpow_pos two_pos _).le) ?_ hk
    rw [zpow_add_one₀ two_ne_zero]
    linarith
  rw [nearest_middle hmiddle hunit, heven, add_zero, hpower]
  push_cast
  rfl

/-- The number before a power of two has an odd mantissa, so the middle below it is rounded to the
power too. -/
theorem nearest_zpow_sub (hk : f.minExponent ≤ k - f.mantissaBits) :
    nearest f (2 ^ k - 2 ^ (k - f.mantissaBits - 1)) = 2 ^ k := by
  have hbits := two_le_mantissaBits f
  have hpower : (2 : ℚ) ^ k = 2 ^ f.mantissaBits * 2 ^ (k - f.mantissaBits) := by
    rw [← zpow_natCast, ← zpow_add₀ two_ne_zero, add_sub_cancel]
  have hhalf : (2 : ℚ) ^ (k - f.mantissaBits) = 2 ^ (k - f.mantissaBits - 1) * 2 := by
    rw [← zpow_add_one₀ two_ne_zero, sub_add_cancel]
  have hmiddle : (2 : ℚ) ^ k - 2 ^ (k - f.mantissaBits - 1) =
      ((2 ^ f.mantissaBits - 1 : ℤ) + 1 / 2) * 2 ^ (k - f.mantissaBits) := by
    rw [hpower]
    push_cast
    linarith
  -- a tie between an odd number of units and the power of two, which is even
  have hodd : (2 ^ f.mantissaBits - 1 : ℤ) % 2 = 1 := by
    have heven : (2 : ℤ) ∣ 2 ^ f.mantissaBits := dvd_pow_self 2 (by omega)
    omega
  have hsmall : (2 : ℚ) ^ (k - f.mantissaBits - 1) ≤ 2 ^ (k - 1) :=
    zpow_le_zpow_right₀ one_le_two (by omega)
  have hbelow : (2 : ℚ) ^ k = 2 ^ (k - 1) * 2 := by
    rw [← zpow_add_one₀ two_ne_zero, sub_add_cancel]
  -- a half unit below the power, the binade before it has half the unit
  have hunit : unitExponent f (2 ^ k - 2 ^ (k - f.mantissaBits - 1)) = k - f.mantissaBits := by
    have heq := unitExponent_of_mem (f := f) (k := k - 1)
      (v := 2 ^ k - 2 ^ (k - f.mantissaBits - 1)) (by linarith)
      (by rw [sub_add_cancel]; exact sub_lt_self _ (zpow_pos two_pos _))
      (by rwa [sub_add_cancel])
    rwa [sub_add_cancel] at heq
  rw [nearest_middle hmiddle hunit, hodd, sub_add_cancel, hpower]
  push_cast
  rfl

/-- A rounded value divided by a number above one is below the value, by a rounding's share. -/
private theorem nearest_div_le {r : ℚ} (hv : 2 ^ (f.minExponent + f.mantissaBits - 1) ≤ v)
    (hr : IsNumber f r) (hlt : 1 < r) :
    nearest f v / r ≤ v * (2 ^ f.mantissaBits / (2 ^ f.mantissaBits + 1)) := by
  have hpos : 0 < v := (zpow_pos two_pos _).trans_le hv
  have hrounded := (abs_le.mp (abs_nearest_sub_le_div (f := f) (by rwa [abs_of_pos hpos]))).2
  have hratio := hr.one_add_le hlt
  rw [abs_of_pos hpos] at hrounded
  -- from here on the powers of two are one positive number `N`
  have hN : (0 : ℚ) < 2 ^ f.mantissaBits := by positivity
  generalize (2 : ℚ) ^ f.mantissaBits = N at hrounded hratio hN ⊢
  rw [div_le_iff₀ (one_pos.trans hlt)]
  have hscaled := mul_le_mul_of_nonneg_left hratio
    (mul_nonneg hpos.le (div_nonneg hN.le (by linarith : 0 ≤ N + 1)))
  have hsum : v + v / (N + 1) = v * (N / (N + 1)) * (1 + 2 / N) := by
    field_simp
    ring
  linarith

/-- What is below a value by that share does not come above it by rounding. -/
private theorem nearest_le_of_le_share {q : ℚ}
    (hv : 2 ^ (f.minExponent + f.mantissaBits - 1) ≤ v)
    (hq : q ≤ v * (2 ^ f.mantissaBits / (2 ^ f.mantissaBits + 1))) : nearest f q ≤ v := by
  have hbits : 1 ≤ f.mantissaBits := Nat.le_add_right ..
  have hnonneg : 0 ≤ v := (zpow_pos two_pos _).le.trans hv
  -- below the least full mantissa the bound is a number of the format itself
  rcases le_total q (2 ^ (f.minExponent + f.mantissaBits - 1)) with hlow | hhigh
  · exact (nearest_le (isNumber_zpow (by omega)) hlow).trans hv
  · have hpos : 0 < q := (zpow_pos two_pos _).trans_le hhigh
    have hrounded := (abs_le.mp (abs_nearest_sub_le_div (f := f) (by rwa [abs_of_pos hpos]))).2
    rw [abs_of_pos hpos] at hrounded
    have hN : (0 : ℚ) < 2 ^ f.mantissaBits := by positivity
    generalize (2 : ℚ) ^ f.mantissaBits = N at hrounded hq hN
    have hfactor : q + q / (N + 1) = q * ((N + 2) / (N + 1)) := by
      field_simp
      ring
    have hscaled := mul_le_mul_of_nonneg_right hq
      (div_nonneg (by linarith) (by linarith) : 0 ≤ (N + 2) / (N + 1))
    -- the two shares together leave less than the value
    have hless : N / (N + 1) * ((N + 2) / (N + 1)) ≤ 1 := by
      rw [div_mul_div_comm]
      exact div_le_one_of_le₀ (by nlinarith) (by positivity)
    have hbound := mul_le_of_le_one_right hnonneg hless
    rw [mul_assoc] at hscaled
    linarith

/-- A difference of numbers, divided by a number above one, is not above the exact difference: what
two roundings can add to it is less than what the least such number takes away. -/
theorem nearest_div_nearest_le {y r : ℚ} (hx : IsNumber f x) (hy : IsNumber f y) (hle : y ≤ x)
    (hr : IsNumber f r) (hlt : 1 < r) : nearest f (nearest f (x - y) / r) ≤ x - y := by
  have hnonneg : 0 ≤ x - y := sub_nonneg.mpr hle
  rcases le_total (2 ^ (f.minExponent + f.mantissaBits - 1)) (x - y) with hnormal | hsmall
  · exact nearest_le_of_le_share hnormal (nearest_div_le hnormal hr hlt)
  · -- a small difference is exact
    have hnumber : IsNumber f (x - y) := by
      refine hx.sub_of_le hy ?_
      rw [abs_of_nonneg hnonneg]
      exact hsmall.trans (zpow_le_zpow_right₀ one_le_two (by omega))
    rw [nearest_of_isNumber hnumber]
    exact nearest_le hnumber (div_le_self hnonneg hlt.le)

end DynamicRange.Binary
