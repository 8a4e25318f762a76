import DynamicRange.Proofs.Scalar.Accumulation

/-!
# Roots of mean squares

The squares of floats are summed, the sum is divided by their number and the root taken, each step
rounded. Of floats whose magnitudes lie between two bounds the result lies between these bounds too,
but for a percent, as long as the floats are few. When they are many the sum stands still while
their number still grows, and the result falls like the root of that number.

## Key results

- `IsWide.sqrt_mem`, `IsWide.div_mem`: the last two steps, each off by a share
- `MagnitudesIn.root_mem`: few floats
- `MagnitudesIn.root_le`: many floats
-/

namespace DynamicRange.Binary

open Float.Model.UnpackedFloat

/-! ### Formats with enough bits -/

/-- Whether a format has the bits of single precision at least, and reaches beyond the sums of ones
that are exact in it. -/
structure IsWide (f : Float.Model.Format) : Prop where
  exponentBits : 8 ≤ f.exponentBits
  mantissaBits : 24 ≤ f.mantissaBits
  lt_overflow : f.mantissaBits < overflow f

/-- Single precision is wide. -/
theorem isWide_binary32 : IsWide .binary32 := ⟨by decide, by decide, by decide⟩

/-- Double precision is wide. -/
theorem isWide_binary64 : IsWide .binary64 := ⟨by decide, by decide, by decide⟩

variable {f : Float.Model.Format} {v lo hi : ℚ}

/-- Where the mantissa has all its bits. -/
theorem IsWide.normal_le (hf : IsWide f) : f.minExponent + f.mantissaBits - 1 ≤ -126 := by
  have hbits := mantissaBits_eq f
  have hexponent := hf.exponentBits
  have hpow : (2 : ℤ) ^ 7 ≤ 2 ^ (f.exponentBits - 1) :=
    pow_le_pow_right₀ one_le_two (by omega)
  rw [minExponent_eq, overflow]
  omega

/-- What is not tiny has a full mantissa. -/
theorem IsWide.zpow_normal_le (hf : IsWide f) (hv : 1 / 2 ^ 126 ≤ v) :
    2 ^ (f.minExponent + f.mantissaBits - 1) ≤ v := by
  refine (zpow_le_zpow_right₀ one_le_two hf.normal_le).trans (le_trans ?_ hv)
  norm_num

/-- A value that is not tiny is moved by a share of itself. -/
theorem IsWide.nearest_mem (hf : IsWide f) (hv : 1 / 2 ^ 126 ≤ v) :
    v * (1 - 1 / 2 ^ 24) ≤ nearest f v ∧ nearest f v ≤ v * (1 + 1 / 2 ^ 24) := by
  have hnormal := hf.zpow_normal_le hv
  have hpos : 0 < v := (zpow_pos two_pos _).trans_le hnormal
  -- a share of the mantissa's own length is at most one of single precision
  have hshare : v / (2 ^ f.mantissaBits + 1) ≤ v / 2 ^ 24 := by
    gcongr
    exact (pow_le_pow_right₀ one_le_two hf.mantissaBits).trans (le_add_of_nonneg_right zero_le_one)
  have herror := abs_nearest_sub_le_div (f := f) (by rwa [abs_of_pos hpos])
  rw [abs_of_pos hpos] at herror
  obtain ⟨hge, hle⟩ := abs_le.mp (herror.trans hshare)
  constructor <;> linarith

/-- Few equal terms add up to their exact sum, but for a share of it. -/
theorem IsWide.accumulated_mem (hf : IsWide f) (hv : 1 / 2 ^ 126 ≤ v) {n : ℕ}
    (hn : n ≤ 2 ^ (f.mantissaBits - 5)) :
    n * v * (1 - 1 / 62) ≤ accumulated f v n ∧ accumulated f v n ≤ n * v * (1 + 1 / 62) := by
  have hnormal := hf.zpow_normal_le hv
  have hpos : 0 < v := (zpow_pos two_pos _).trans_le hnormal
  have hbits := hf.mantissaBits
  have herror := abs_accumulated_sub_le (by omega) hnormal hn
  have hN : (2 : ℚ) ^ 24 ≤ 2 ^ f.mantissaBits := pow_le_pow_right₀ one_le_two hbits
  -- the number of terms is small beside the mantissa
  have hsmall : (n + 1 : ℚ) / 2 ^ f.mantissaBits ≤ 1 / 32 + 1 / 2 ^ 24 := by
    have hcount : (n : ℚ) * 2 ^ 5 ≤ 2 ^ f.mantissaBits := by
      rw [← Nat.sub_add_cancel (by omega : 5 ≤ f.mantissaBits), pow_add]
      gcongr
      exact_mod_cast hn
    rw [div_le_iff₀ (by positivity)]
    linarith
  -- the error of the sum is then a share of the exact sum
  have hshare : 33 / 64 * (n * (n + 1)) * (v / 2 ^ f.mantissaBits) ≤ n * v * (1 / 62) := by
    calc (33 / 64 * (n * (n + 1)) * (v / 2 ^ f.mantissaBits) : ℚ)
        = n * v * (33 / 64 * ((n + 1) / 2 ^ f.mantissaBits)) := by ring
      _ ≤ n * v * (1 / 62) := by
          refine mul_le_mul_of_nonneg_left ?_ (by positivity)
          linarith
  obtain ⟨hge, hle⟩ := abs_le.mp (herror.trans hshare)
  constructor <;> linarith

section Packed

variable {α : Type} [Add α] [Sub α] [Mul α] [Div α] [Neg α] [LT α] [LE α] [Packed α f]
  {x y z start count : α} {xs : List α}

/-! ### Square roots -/

/-- The root of what lies between two squares lies between their roots, but for a share. -/
theorem IsWide.sqrt_mem (hf : IsWide f)
    (hz : unpacked z = unpack f (pack f (sqrt f (unpacked x)))) (hx : Finite x)
    (hlo : 1 / 2 ^ 100 ≤ lo) (hhi : 0 ≤ hi) (hhi' : hi ≤ 2) (hlow : lo ^ 2 ≤ value x)
    (hhigh : value x ≤ hi ^ 2) :
    Finite z ∧ lo * (1 - 1 / 2 ^ 22) ≤ value z ∧ value z ≤ hi * (1 + 1 / 2 ^ 22) := by
  have hpos : 0 < lo := lt_of_lt_of_le (by positivity) hlo
  have hle : lo ≤ hi := le_of_sq_le_sq (hlow.trans hhigh) hhi
  -- the bounds need not be numbers of the format, but there are such next to them
  obtain ⟨hbelow, hbelow'⟩ := hf.nearest_mem (v := lo * (1 - 1 / 2 ^ 23)) (by linarith)
  obtain ⟨habove, habove'⟩ := hf.nearest_mem (v := hi * (1 + 1 / 2 ^ 23)) (by linarith)
  have hlow' : nearest f (lo * (1 - 1 / 2 ^ 23)) ^ 2 ≤ value x := by
    refine (pow_le_pow_left₀ ?_ ?_ 2).trans hlow <;> linarith
  have hhigh' : value x ≤ nearest f (hi * (1 + 1 / 2 ^ 23)) ^ 2 := by
    refine hhigh.trans (pow_le_pow_left₀ hhi ?_ 2)
    linarith
  -- the upper bound is far from where the format overflows
  have hmax : (2 : ℚ) ^ (24 : ℤ) ≤ 2 ^ overflow f := by
    refine zpow_le_zpow_right₀ one_le_two ?_
    have := hf.mantissaBits
    have := hf.lt_overflow
    omega
  obtain ⟨hfinite, hge, hle⟩ := sqrt_mem_of_unpacked hz hx
    ((pow_pos hpos 2).trans_le hlow) (isNumber_nearest f _) (isNumber_nearest f _)
    (by linarith) hlow' hhigh' (by linarith) (by linarith)
  refine ⟨hfinite, le_trans ?_ hge, hle.trans ?_⟩ <;> linarith

/-- A quotient that lies between two values, but for a share. -/
theorem IsWide.div_mem (hf : IsWide f) (hx : Finite x) (hy : Finite y) (hpos : 0 < value y)
    (hlo : 1 / 2 ^ 126 ≤ lo) (hhi : hi ≤ 2) (hlow : lo ≤ value x / value y)
    (hhigh : value x / value y ≤ hi) :
    Finite (x / y) ∧ lo * (1 - 1 / 2 ^ 24) ≤ value (x / y) ∧
      value (x / y) ≤ hi * (1 + 1 / 2 ^ 24) := by
  have hpos' : 0 < lo := lt_of_lt_of_le (by positivity) hlo
  -- the quotient is not above two, so it does not overflow
  have hbound : |value x / value y| ≤ 2 ^ (1 : ℤ) := by
    rw [abs_of_nonneg (hpos'.le.trans hlow), zpow_one]
    exact hhigh.trans hhi
  have hrounds := div_rounds hx hy hpos.ne' (abs_nearest_lt_overflow hbound
    ((minExponent_nonpos f).trans (by decide))
    (one_lt_overflow (Packed.two_le_exponentBits α)))
  rw [hrounds.value_eq]
  exact ⟨hrounds.finite, (hf.nearest_mem hlo).1.trans (nearest_mono hlow),
    (nearest_mono hhigh).trans (hf.nearest_mem (hlo.trans (hlow.trans hhigh))).2⟩

/-! ### Sums of squares -/

/-- The sum of the squares of floats, rounded after each step. -/
def sumOfSquares (start : α) (xs : List α) : α := xs.foldl (fun sum x => sum + x * x) start

/-- Whether the magnitudes of all floats lie between two bounds, which are neither tiny nor above
one. -/
structure MagnitudesIn (lo hi : ℚ) (xs : List α) : Prop where
  ge : 1 / 1000 ≤ lo
  le : hi ≤ 1
  finite : ∀ x ∈ xs, Finite x
  mem : ∀ x ∈ xs, lo ≤ |value x| ∧ |value x| ≤ hi

variable (h : MagnitudesIn lo hi xs)
include h

/-- Rounding keeps the bounds of a square. -/
theorem MagnitudesIn.square_mem (hx : x ∈ xs) :
    Finite (x * x) ∧ nearest f (lo ^ 2) ≤ value (x * x) ∧ value (x * x) ≤ nearest f (hi ^ 2) := by
  have hge := h.ge
  obtain ⟨hlo, hhi⟩ := h.mem x hx
  have hlow : lo ^ 2 ≤ value x * value x := by
    rw [← abs_mul_abs_self, ← sq]
    gcongr
  have hhigh : value x * value x ≤ hi ^ 2 := by
    rw [← abs_mul_abs_self, ← sq]
    gcongr
  -- squares are not above one, so they do not overflow
  have hone : |value x * value x| ≤ 2 ^ (0 : ℤ) := by
    rw [abs_of_nonneg (mul_self_nonneg _), zpow_zero]
    exact hhigh.trans (pow_le_one₀ (by linarith) h.le)
  have hoverflow := one_lt_overflow (Packed.two_le_exponentBits α (f := f))
  have hrounds := mul_rounds (h.finite x hx) (h.finite x hx)
    (abs_nearest_lt_overflow hone (minExponent_nonpos f) (by omega))
  rw [hrounds.value_eq]
  exact ⟨hrounds.finite, nearest_mono hlow, nearest_mono hhigh⟩

/-- The squares are far from the least numbers of a format. -/
theorem MagnitudesIn.normal_le : 1 / 2 ^ 20 ≤ lo ^ 2 := by
  have hge := h.ge
  calc (1 / 2 ^ 20 : ℚ) ≤ (1 / 1000) ^ 2 := by norm_num
    _ ≤ lo ^ 2 := by gcongr

/-- The bounds of the magnitudes of some floats are in order. -/
theorem MagnitudesIn.lo_le_hi (hne : xs ≠ []) : lo ≤ hi :=
  have hmem := h.mem _ (List.head_mem hne)
  hmem.1.trans hmem.2

/-- The squares of the bounds are in order. -/
theorem MagnitudesIn.sq_le_sq (hne : xs ≠ []) : lo ^ 2 ≤ hi ^ 2 := by
  have hge := h.ge
  have hle := h.lo_le_hi hne
  gcongr

/-- The square of the upper bound is not above one. -/
theorem MagnitudesIn.sq_le_one (hne : xs ≠ []) : hi ^ 2 ≤ 1 :=
  pow_le_one₀ (by linarith [h.ge, h.lo_le_hi hne]) h.le

section Sum

variable (hf : IsWide f) (hstart : Finite start) (hzero : value start = 0) (hne : xs ≠ [])
include hf hstart hzero hne

/-- The sum of the squares lies between the sums of the squares of the bounds. -/
theorem MagnitudesIn.sumOfSquares_mem :
    Finite (sumOfSquares start xs) ∧
      accumulated f (nearest f (lo ^ 2)) xs.length ≤ value (sumOfSquares start xs) ∧
      value (sumOfSquares start xs) ≤ accumulated f (nearest f (hi ^ 2)) xs.length := by
  -- a term of one at most lets the sum stand still before it overflows
  have hone : nearest f (hi ^ 2) ≤ 2 ^ ((f.mantissaBits : ℤ) - f.mantissaBits) := by
    rw [sub_self, zpow_zero]
    exact nearest_le isNumber_one (h.sq_le_one hne)
  exact foldl_add_mem hstart hzero (le_nearest isNumber_zero (sq_nonneg lo)) hone
    (by have := minExponent_nonpos f; omega) hf.lt_overflow fun x hx => h.square_mem hx

/-! ### Few floats -/

/-- The mean of the squares of few floats. -/
theorem MagnitudesIn.mean_mem (hlen : xs.length ≤ 2 ^ (f.mantissaBits - 5))
    (hcount : Finite count) (hcount' : value count = xs.length) :
    Finite (sumOfSquares start xs / count) ∧
      (lo * (1 - 1 / 121)) ^ 2 ≤ value (sumOfSquares start xs / count) ∧
      value (sumOfSquares start xs / count) ≤ (hi * (1 + 1 / 121)) ^ 2 := by
  have hnormal := h.normal_le
  have hsq := h.sq_le_sq hne
  have hone := h.sq_le_one hne
  have hpos : (0 : ℚ) < xs.length := by exact_mod_cast List.length_pos_iff.mpr hne
  obtain ⟨hsum, hsum_ge, hsum_le⟩ := h.sumOfSquares_mem hf hstart hzero hne
  -- a share for the rounding of the square, one for the sum, and one for the division
  obtain ⟨hq, -⟩ := hf.nearest_mem (v := lo ^ 2) (by linarith)
  obtain ⟨hr, hr'⟩ := hf.nearest_mem (v := hi ^ 2) (by linarith)
  have hlow : lo ^ 2 * (1 - 1 / 2 ^ 24) * (1 - 1 / 62) ≤
      value (sumOfSquares start xs) / value count := by
    have hacc := (hf.accumulated_mem (v := nearest f (lo ^ 2)) (by linarith) hlen).1
    have hmul := mul_le_mul_of_nonneg_left hq hpos.le
    rw [hcount', le_div_iff₀ hpos]
    linarith
  have hhigh : value (sumOfSquares start xs) / value count ≤
      hi ^ 2 * (1 + 1 / 2 ^ 24) * (1 + 1 / 62) := by
    have hacc := (hf.accumulated_mem (v := nearest f (hi ^ 2)) (by linarith) hlen).2
    have hmul := mul_le_mul_of_nonneg_left hr' hpos.le
    rw [hcount', div_le_iff₀ hpos]
    linarith
  obtain ⟨hfinite, hge, hle⟩ := hf.div_mem hsum hcount (hcount' ▸ hpos) (by linarith)
    (by linarith) hlow hhigh
  exact ⟨hfinite, by linarith, by linarith⟩

/-- The root of the mean of the squares of few floats is off by a percent at most. -/
theorem MagnitudesIn.root_mem (hlen : xs.length ≤ 2 ^ (f.mantissaBits - 5))
    (hcount : Finite count) (hcount' : value count = xs.length)
    (hz : unpacked z = unpack f (pack f (sqrt f (unpacked (sumOfSquares start xs / count))))) :
    Finite z ∧ lo * (1 - 1 / 120) ≤ value z ∧ value z ≤ hi * (1 + 1 / 120) := by
  have hge := h.ge
  have hle := h.lo_le_hi hne
  have hone := h.le
  obtain ⟨hmean, hlow, hhigh⟩ := h.mean_mem hf hstart hzero hne hlen hcount hcount'
  obtain ⟨hfinite, hz_ge, hz_le⟩ := hf.sqrt_mem hz hmean (by linarith) (by linarith)
    (by linarith) hlow hhigh
  exact ⟨hfinite, by linarith, by linarith⟩

/-! ### Many floats -/

/-- What a sum of squares can come to at most, however many they are. -/
theorem MagnitudesIn.sumOfSquares_le :
    value (sumOfSquares start xs) ≤ 2 ^ (f.mantissaBits + 1) * hi ^ 2 := by
  have hsq : 2 ^ (-20 : ℤ) ≤ hi ^ 2 :=
    calc (2 : ℚ) ^ (-20 : ℤ) = 1 / 2 ^ 20 := by norm_num
      _ ≤ lo ^ 2 := h.normal_le
      _ ≤ hi ^ 2 := h.sq_le_sq hne
  -- the sum stands still at the power of two that is too far from the next one for a square
  obtain ⟨m, hm, hm'⟩ := exists_mem_Ioc_zpow ((zpow_pos two_pos _).trans_le hsq) one_lt_two
  have hexponent := (zpow_le_zpow_iff_right₀ (one_lt_two (α := ℚ))).mp (hsq.trans hm')
  have hnormal := hf.normal_le
  have hbits := hf.mantissaBits
  have hpower : (2 : ℚ) ^ (m + 1) = 2 ^ (m + 1 + f.mantissaBits - f.mantissaBits : ℤ) := by
    rw [add_sub_cancel_right]
  obtain ⟨-, -, hle⟩ := h.sumOfSquares_mem hf hstart hzero hne
  calc value (sumOfSquares start xs)
      ≤ accumulated f (nearest f (hi ^ 2)) xs.length := hle
    _ ≤ 2 ^ (m + 1 + f.mantissaBits : ℤ) := by
        refine accumulated_le_zpow (by omega) ?_ _
        rw [← hpower]
        exact nearest_le (isNumber_zpow (by omega)) hm'
    _ = 2 ^ (f.mantissaBits + 1) * 2 ^ m := by
        rw [← zpow_natCast, ← zpow_add₀ two_ne_zero]
        congr 1
        push_cast
        ring
    _ ≤ 2 ^ (f.mantissaBits + 1) * hi ^ 2 := by gcongr

/-- A sum of squares is not less than the first of them. -/
theorem MagnitudesIn.le_sumOfSquares : 1 / 2 ^ 20 ≤ value (sumOfSquares start xs) := by
  have hnumber : IsNumber f (1 / 2 ^ 20) := by
    have hpower : (1 / 2 ^ 20 : ℚ) = 2 ^ (-20 : ℤ) := by norm_num
    have hnormal := hf.normal_le
    have hbits := hf.mantissaBits
    rw [hpower]
    exact isNumber_zpow (by omega)
  have hfirst : 1 / 2 ^ 20 ≤ nearest f (lo ^ 2) := le_nearest hnumber h.normal_le
  have hnonneg : 0 ≤ nearest f (lo ^ 2) := le_nearest isNumber_zero (sq_nonneg lo)
  -- the sums grow with the number of terms, of which there is one
  have hmono : Monotone (accumulated f (nearest f (lo ^ 2))) :=
    monotone_nat_of_le_succ (accumulated_le_succ hnonneg)
  obtain ⟨-, hge, -⟩ := h.sumOfSquares_mem hf hstart hzero hne
  calc 1 / 2 ^ 20 ≤ nearest f (lo ^ 2) := hfirst
    _ = accumulated f (nearest f (lo ^ 2)) 1 := by
        rw [accumulated, accumulated, zero_add, nearest_of_isNumber (isNumber_nearest f _)]
    _ ≤ accumulated f (nearest f (lo ^ 2)) xs.length := hmono (List.length_pos_iff.mpr hne)
    _ ≤ value (sumOfSquares start xs) := hge

/-- The root of the mean of the squares of many floats falls like the root of their number. -/
theorem MagnitudesIn.root_le (hlen : xs.length ≤ 2 ^ 64) (hcount : Rounds count (xs.length : ℚ))
    {c : ℚ} (hc : 0 ≤ c) (hc' : c ≤ 1)
    (hmany : 2 ^ (f.mantissaBits + 1) * hi ^ 2 ≤ xs.length * c ^ 2)
    (hz : unpacked z = unpack f (pack f (sqrt f (unpacked (sumOfSquares start xs / count))))) :
    Finite z ∧ value z ≤ c * (1 + 1 / 2 ^ 20) := by
  have hsum_ge := h.le_sumOfSquares hf hstart hzero hne
  have hsum_le := (h.sumOfSquares_le hf hstart hzero hne).trans hmany
  have hlen' : (xs.length : ℚ) ≤ 2 ^ 64 := by exact_mod_cast hlen
  have hpos : (1 : ℚ) ≤ xs.length := by exact_mod_cast List.length_pos_iff.mpr hne
  -- the length is rounded as well, before it divides the sum
  obtain ⟨hcount_ge, hcount_le⟩ := hf.nearest_mem (v := xs.length) (by linarith)
  rw [← hcount.value_eq] at hcount_ge hcount_le
  have hcount_pos : 0 < value count := by linarith
  have hsq : c ^ 2 ≤ 1 := pow_le_one₀ hc hc'
  -- the sum is not tiny and the length is not large, so neither is their quotient tiny
  have hlow : 1 / 2 ^ 85 ≤ value (sumOfSquares start xs) / value count := by
    rw [le_div_iff₀ hcount_pos]
    linarith
  -- the rounded length is not below the length but for a share
  have hhigh : value (sumOfSquares start xs) / value count ≤ c ^ 2 * (1 + 1 / 2 ^ 23) := by
    have hscaled := mul_le_mul_of_nonneg_left hcount_ge (sq_nonneg c)
    rw [div_le_iff₀ hcount_pos]
    have hnonneg := mul_nonneg (sq_nonneg c) (zero_le_one.trans hpos)
    linarith
  obtain ⟨hmean, hge, hle⟩ := hf.div_mem (h.sumOfSquares_mem hf hstart hzero hne).1 hcount.finite
    hcount_pos (by linarith) (by linarith) hlow hhigh
  have hsq_ge : (1 / 2 ^ 43 : ℚ) ^ 2 ≤ value (sumOfSquares start xs / count) := by linarith
  have hsq_le : value (sumOfSquares start xs / count) ≤ (c * (1 + 1 / 2 ^ 22)) ^ 2 := by
    rw [mul_pow]
    have hnonneg := sq_nonneg c
    linarith
  obtain ⟨hfinite, -, hroot⟩ := hf.sqrt_mem hz hmean (by norm_num) (by linarith) (by linarith)
    hsq_ge hsq_le
  exact ⟨hfinite, by linarith⟩

end Sum

end Packed

end DynamicRange.Binary
