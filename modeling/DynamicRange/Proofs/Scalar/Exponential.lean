import DynamicRange.Scalar.Exponential
import DynamicRange.Proofs.Scalar.Logarithm
import DynamicRange.Proofs.Scalar.Truncate

/-!
# The exponential does not overflow

Up to 80 the exponential of single precision is a finite number, far enough from the largest one to
be multiplied by a make-up gain. Nothing is said of its accuracy: it is enough to follow how large
each step can be, and to see that the divisor stays away from zero.

## Key results

- `expReduced_bound`: the exponential of a reduced argument
- `expCase`: which way it is computed, by the value of the argument
- `exp_bound`: the exponential of numbers up to 80
-/

namespace DynamicRange.Binary

open Scalar

variable {x y high low : Float32} {k : ℤ}

/-! ### Reduced arguments -/

/-- What is taken away from the reduced argument is small, and not below zero. -/
private theorem near_expPolynomial (hx : Finite x) (h : |value x| ≤ 1.7412) :
    ∃ P, Near (x * x * (1.6666625440e-1 + x * x * (-2.7667332906e-3))) P 1e-7 ∧ 0 ≤ P ∧
      P ≤ 0.531 ∧ P ≤ 0.16667 * (value x * value x) := by
  have hP₁ : Near 1.6666625440e-1 (11184783 / 67108864) 0 := by
    have h : unpacked (1.6666625440e-1 : Float32) = .finite .positive 11184783 (-26) (by decide) :=
      rfl
    exact near_of_unpacked h (by norm_num [signed])
  have hP₂ : Near (-2.7667332906e-3) (-(11883029 / 4294967296)) 0 := by
    have h : unpacked (-2.7667332906e-3 : Float32) =
        .finite .negative 11883029 (-32) (by decide) := rfl
    exact near_of_unpacked h (by norm_num [signed])
  -- from here on the argument is its value `X`, and each operation has a bound and an error
  have hX := near_value hx
  generalize value x = X at h hX
  have hsquare : |X * X| ≤ 3.0318 := abs_mul_le_of_le h h (by norm_num)
  have hs := (hX.mul hX h h 2 (by norm_num) (by norm_num)).mono
    (show _ ≤ (1.2e-7 : ℚ) by norm_num)
  have hB₂ : |(-(11883029 / 4294967296) : ℚ)| ≤ 0.00277 := by norm_num [abs_of_pos]
  have hm := (hs.mul hP₂ hsquare hB₂ (-6) (by norm_num) (by norm_num)).mono
    (show _ ≤ (1e-9 : ℚ) by norm_num)
  have hM := abs_mul_le_of_le (D := 0.0084) hsquare hB₂ (by norm_num)
  have hB₁ : |(11184783 / 67108864 : ℚ)| ≤ 0.16667 := by norm_num [abs_of_pos]
  have hI := abs_add_le_of_le (D := 0.1751) hB₁ hM (by norm_num)
  have hi := (hP₁.add hm hI (-2) (by norm_num) (by norm_num)).mono
    (show _ ≤ (9e-9 : ℚ) by norm_num)
  have hp := (hs.mul hi hsquare hI 0 (by norm_num) (by norm_num)).mono
    (show _ ≤ (1e-7 : ℚ) by norm_num)
  have hnonneg := mul_self_nonneg X
  have hsquare' := (abs_le.mp hsquare).2
  norm_num at hsquare'
  -- the polynomial is a square times a factor between zero and a sixth
  refine ⟨_, hp, mul_nonneg hnonneg (by linarith),
    (abs_le.mp (abs_mul_le_of_le (D := 0.531) hsquare hI (by norm_num))).2, ?_⟩
  rw [mul_comm (0.16667 : ℚ)]
  refine mul_le_mul_of_nonneg_left ?_ hnonneg
  norm_num
  linarith

/-- The rational function of the reduced argument, before it is scaled. -/
theorem near_expFraction (hx : Finite x) (h : |value x| ≤ 1.7412) :
    let c := x - x * x * (1.6666625440e-1 + x * x * (-2.7667332906e-3))
    ∃ q, Near (x * c / (2 - c)) q 4e-5 ∧ |q| ≤ 15.3 ∧ (|value x| ≤ 0.36 → |q| ≤ |value x| / 4) := by
  intro c
  obtain ⟨P, hp, hPnonneg, hP, hPsquare⟩ := near_expPolynomial hx h
  have hX := near_value hx
  generalize value x = X at h hX hPsquare
  have hX' := (abs_le.mp h).2
  have hC : |X - P| ≤ 2.2722 := by
    have hP' : |P| ≤ 0.531 := by rwa [abs_of_nonneg hPnonneg]
    exact (abs_sub _ _).trans ((add_le_add h hP').trans (by norm_num))
  -- the numerator without the argument, then the divisor, the product and the quotient
  have hc : Near c (X - P) 3e-7 := (hX.sub hp hC 2 (by norm_num) (by norm_num)).mono (by norm_num)
  -- the polynomial takes away from the argument, so the divisor stays positive
  have hdiff : 0.2588 ≤ 2 - (X - P) := by
    norm_num at hX' ⊢
    linarith
  have hpos : 0 < 2 - (X - P) := lt_of_lt_of_le (by norm_num) hdiff
  have hD : |2 - (X - P)| ≤ 4.2722 :=
    (abs_sub _ _).trans ((add_le_add (abs_of_pos two_pos).le hC).trans (by norm_num))
  have hd := (near_two.sub hc hD 3 (by norm_num) (by norm_num)).mono
    (show _ ≤ (6e-7 : ℚ) by norm_num)
  have hXC := abs_mul_le_of_le (D := 3.957) h hC (by norm_num)
  have hxc := (hX.mul hc h hC 2 (by norm_num) (by norm_num)).mono
    (show _ ≤ (7e-7 : ℚ) by norm_num)
  have hQ : |X * (X - P) / (2 - (X - P))| ≤ 15.3 := by
    rw [abs_div, abs_of_pos hpos, div_le_iff₀ hpos]
    norm_num at hXC hdiff ⊢
    linarith
  have haway : 0.258 + 6e-7 ≤ |2 - (X - P)| := by
    rw [abs_of_pos hpos]
    norm_num at hdiff ⊢
    linarith
  refine ⟨_, (hxc.div hd haway (by norm_num) hQ 4 (by norm_num) (by norm_num)).mono (by norm_num),
    hQ, fun hsmall => ?_⟩
  -- next to zero it is of the order of the square
  have hX₂ := abs_mul_le_of_le (D := 0.1296) hsmall hsmall (by norm_num)
  have hX₂' := (abs_le.mp hX₂).2
  have hC' : |X - P| ≤ 0.3818 := by
    refine (abs_sub _ _).trans ((add_le_add hsmall (abs_of_nonneg hPnonneg).le).trans ?_)
    norm_num at hX₂' ⊢
    linarith
  have hdiff' := (abs_le.mp hC').2
  rw [abs_div, abs_of_pos hpos, div_le_iff₀ hpos, abs_mul, div_mul_eq_mul_div, mul_div_assoc]
  refine mul_le_mul_of_nonneg_left (hC'.trans ?_) (abs_nonneg X)
  norm_num at hdiff' ⊢
  linarith

/-- The exponential of a reduced argument, before it is scaled. -/
private theorem fraction_bound (hh : Finite high) (hl : Finite low) (hhigh : |value high| ≤ 1.74)
    (hlow : |value low| ≤ 0.001) :
    let x := high - low
    let c := x - x * x * (1.6666625440e-1 + x * x * (-2.7667332906e-3))
    Finite (1 + (x * c / (2 - c) - low + high)) ∧
      |value (1 + (x * c / (2 - c) - low + high))| ≤ 2 ^ (5 : ℤ) := by
  intro x c
  -- the reduced argument, with the rounding of the difference
  have hdiff : |value high - value low| ≤ 1.741 :=
    (abs_sub _ _).trans ((add_le_add hhigh hlow).trans (by norm_num))
  have hx := (near_value hh).sub (near_value hl) hdiff 1 (by norm_num) (by norm_num)
  obtain ⟨q, hq, hQ, -⟩ := near_expFraction hx.finite ((hx.abs_value_le hdiff).trans (by norm_num))
  -- the rest is three sums, each with a bound and an error
  have hQ₁ : |q - value low| ≤ 15.301 :=
    (abs_sub _ _).trans ((add_le_add hQ hlow).trans (by norm_num))
  have h₁ := (hq.sub (near_value hl) hQ₁ 4 (by norm_num) (by norm_num)).mono
    (show _ ≤ (4.2e-5 : ℚ) by norm_num)
  have hQ₂ := abs_add_le_of_le (D := 17.05) hQ₁ hhigh (by norm_num)
  have h₂ := (h₁.add (near_value hh) hQ₂ 5 (by norm_num) (by norm_num)).mono
    (show _ ≤ (5e-5 : ℚ) by norm_num)
  have hQ₃ := abs_add_le_of_le (D := 18.05) (abs_one (α := ℚ)).le hQ₂ (by norm_num)
  have h₃ := (near_one.add h₂ hQ₃ 5 (by norm_num) (by norm_num)).mono
    (show _ ≤ (6e-5 : ℚ) by norm_num)
  exact ⟨h₃.finite, (h₃.abs_value_le hQ₃).trans (by norm_num)⟩

/-! ### Scaling -/

/-- A power of two that is put together of its bits is exact. -/
theorem twoPow_spec (hlow : -126 ≤ k) (hhigh : k ≤ 127) :
    Finite (twoPow k) ∧ value (twoPow k) = 2 ^ k := by
  obtain ⟨n, hn⟩ : ∃ n : ℕ, k + 127 = n := Int.eq_ofNat_of_zero_le (by omega)
  have hword : ((k + 127).toNat.toUInt32 <<< 23).toNat = n * 2 ^ 23 := by
    rw [hn, Int.toNat_natCast, UInt32.toNat_shiftLeft, Nat.shiftLeft_eq]
    show n % 2 ^ 32 * 2 ^ 23 % 2 ^ 32 = n * 2 ^ 23
    omega
  obtain ⟨hfinite, hvalue⟩ := ofBits_spec (b := (k + 127).toNat.toUInt32 <<< 23) (by omega)
  refine ⟨hfinite, hvalue.trans ?_⟩
  -- the bits are those of the exponent, with a fraction of zeros
  have hexponent : ((n : ℕ) : ℤ) - 150 = k - 23 := by omega
  rw [hword, wordValue, if_neg (by omega), Nat.mul_div_cancel _ (by decide), Nat.mul_mod_left,
    hexponent, zpow_sub₀ two_ne_zero]
  norm_num
  ring

/-- A small number times a power of two. -/
private theorem scaleByTwoPow_bound (hx : Finite x) (h : |value x| ≤ 2 ^ (5 : ℤ)) (hlow : -151 ≤ k)
    (hhigh : k ≤ 115) :
    Finite (scaleByTwoPow x k) ∧ |value (scaleByTwoPow x k)| ≤ 2 ^ (120 : ℤ) := by
  have hmul {y : Float32} {a b : ℤ} (hy : Finite y) (ha : |value y| ≤ 2 ^ a) (hb : -126 ≤ b)
      (hb' : b ≤ 127) (hm : -149 ≤ a + b ∧ a + b ≤ 127) :
      Finite (y * twoPow b) ∧ |value (y * twoPow b)| ≤ 2 ^ (a + b) := by
    obtain ⟨hfinite, hvalue⟩ := twoPow_spec hb hb'
    refine mul_bound hy hfinite ?_ hm
    rw [hvalue, abs_mul, zpow_add₀ two_ne_zero, abs_of_pos (zpow_pos (two_pos (α := ℚ)) b)]
    gcongr
  unfold scaleByTwoPow
  -- a large power is not scaled to, and a small one is reached in two products
  rw [if_neg (by omega)]
  split
  · obtain ⟨hfinite, hbound⟩ := hmul hx h (b := -100) (by omega) (by omega) (by omega)
    obtain ⟨hfinite', hbound'⟩ :=
      hmul hfinite hbound (b := k + 100) (by omega) (by omega) (by omega)
    exact ⟨hfinite', hbound'.trans (zpow_le_zpow_right₀ one_le_two (by omega))⟩
  · obtain ⟨hfinite, hbound⟩ := hmul hx h (b := k) (by omega) (by omega) (by omega)
    exact ⟨hfinite, hbound.trans (zpow_le_zpow_right₀ one_le_two (by omega))⟩

/-- The exponential of a reduced argument and an exponent. -/
theorem expReduced_bound (hh : Finite high) (hl : Finite low) (hhigh : |value high| ≤ 1.74)
    (hlow : |value low| ≤ 0.001) (hk : -151 ≤ k ∧ k ≤ 115) :
    Finite (expReduced k high low) ∧ |value (expReduced k high low)| ≤ 2 ^ (120 : ℤ) := by
  obtain ⟨hfinite, hbound⟩ := fraction_bound hh hl hhigh hlow
  unfold expReduced
  dsimp only
  split
  · exact ⟨hfinite, hbound.trans (zpow_le_zpow_right₀ one_le_two (by decide))⟩
  · exact scaleByTwoPow_bound hfinite hbound hk.1 hk.2

/-! ### The reduction -/

/-- The upper part of the logarithm of two, as it is used for the reduction, is exact. -/
theorem near_reductionHigh : Near reductionHigh (22713 / 32768) 0 := by
  have h : unpacked reductionHigh = .finite .positive 11629056 (-24) (by decide) := rfl
  exact near_of_unpacked h (by norm_num [signed])

/-- The lower part of the logarithm of two, as it is used for the reduction, is exact. -/
theorem near_reductionLow : Near reductionLow (6283079 / 4398046511104) 0 := by
  have h : unpacked reductionLow = .finite .positive 12566158 (-43) (by decide) := rfl
  exact near_of_unpacked h (by norm_num [signed])

/-- The reciprocal of the logarithm of two is exact. -/
theorem near_reciprocalLogTwo : Near reciprocalLogTwo (12102203 / 8388608) 0 := by
  have h : unpacked reciprocalLogTwo = .finite .positive 12102203 (-23) (by decide) := rfl
  exact near_of_unpacked h (by norm_num [signed])

/-- Minus a half is exact. -/
theorem near_neg_half : Near (-0.5) (-(1 / 2)) 0 := by
  have h : unpacked (-0.5 : Float32) = .finite .negative (2 ^ 23) (-24) (by decide) := rfl
  exact near_of_unpacked h (by norm_num [signed])

/-- An argument less a multiple of the logarithm of two, in two parts. -/
theorem near_reduction (hx : Finite x) (hk : |(k : ℚ)| ≤ 151)
    (hnear : |value x - k * (22713 / 32768)| ≤ 1.735) :
    Near (x - .ofInt k * reductionHigh) (value x - k * (22713 / 32768)) 5e-6 ∧
      Near (.ofInt k * reductionLow) (k * (6283079 / 4398046511104)) 1e-9 ∧
        |(k * (6283079 / 4398046511104) : ℚ)| ≤ 2.2e-4 := by
  have hk' : |k| ≤ 151 := by exact_mod_cast hk
  obtain ⟨hfinite, hvalue⟩ := ofInt_exact (hk'.trans (by norm_num))
  have hn : Near (Float32.ofInt k) k 0 := ⟨hfinite, by rw [hvalue, sub_self, abs_zero]⟩
  have hB : |(22713 / 32768 : ℚ)| ≤ 0.6932 := by norm_num [abs_of_pos]
  have hB' : |(6283079 / 4398046511104 : ℚ)| ≤ 1.43e-6 := by norm_num [abs_of_pos]
  -- the multiple is a small integer, so only the product and the difference are rounded
  have hprod := (hn.mul near_reductionHigh hk hB 7 (by norm_num) (by norm_num)).mono
    (show _ ≤ (4e-6 : ℚ) by norm_num)
  exact ⟨((near_value hx).sub hprod hnear 1 (by norm_num) (by norm_num)).mono (by norm_num),
    (hn.mul near_reductionLow hk hB' (-12) (by norm_num) (by norm_num)).mono (by norm_num),
    abs_mul_le_of_le hk hB' (by norm_num)⟩

/-- An argument less a multiple of the logarithm of two that is next to it. -/
private theorem reduced_bound (hx : Finite x) (h : |(k : ℚ)| ≤ 151 ∧
    |value x - k * (22713 / 32768)| ≤ 1.735 ∧ k ≤ 115) :
    Finite (expReduced k (x - .ofInt k * reductionHigh) (.ofInt k * reductionLow)) ∧
      |value (expReduced k (x - .ofInt k * reductionHigh) (.ofInt k * reductionLow))| ≤
        2 ^ (120 : ℤ) := by
  obtain ⟨hk, hnear, hle⟩ := h
  have hk' : |k| ≤ 151 := by exact_mod_cast hk
  obtain ⟨hhigh, hlow, hlow'⟩ := near_reduction hx hk hnear
  exact expReduced_bound hhigh.finite hlow.finite ((hhigh.abs_value_le hnear).trans (by norm_num))
    ((hlow.abs_value_le hlow').trans (by norm_num)) ⟨(abs_le.mp hk').1, hle⟩

/-- The quotient of an argument by the logarithm of two, moved by half before it is truncated. -/
theorem near_quotient (hx : Finite x) (h : |value x| ≤ 104) {half : Float32} {r : ℚ}
    (hhalf : Near half r 0) (hr : |r| ≤ 1 / 2) :
    Near (reciprocalLogTwo * x + half) (12102203 / 8388608 * value x + r) 2e-5 ∧
      |12102203 / 8388608 * value x + r| ≤ 150.55 := by
  have hB : |(12102203 / 8388608 : ℚ)| ≤ 1.4427 := by norm_num [abs_of_pos]
  have hprod := (near_reciprocalLogTwo.mul (near_value hx) hB h 8 (by norm_num) (by norm_num)).mono
    (show _ ≤ (8e-6 : ℚ) by norm_num)
  have hP := abs_mul_le_of_le (D := 150.05) hB h (by norm_num)
  have hS := abs_add_le_of_le (D := 150.55) hP hr (by norm_num)
  exact ⟨(hprod.add hhalf hS 8 (by norm_num) (by norm_num)).mono (by norm_num), hS⟩

/-- The multiple that is taken for a large argument. -/
private theorem multiple_bound (hx : Finite x) (h : |value x| ≤ 104) (hle : value x ≤ 80)
    {half : Float32} {r : ℚ} (hhalf : Near half r 0) (hr : |r| ≤ 1 / 2) (hk : k =
      truncate (-2147483648) 2147483647 (reciprocalLogTwo * x + half)) :
    |(k : ℚ)| ≤ 151 ∧ |value x - k * (22713 / 32768)| ≤ 1.735 ∧ k ≤ 115 := by
  obtain ⟨hsum, hS⟩ := near_quotient hx h hhalf hr
  -- the multiple is the integer part of the quotient, so it is within one of it
  have hsmall := hsum.abs_value_le hS
  obtain ⟨htoward, hclose⟩ := truncate_spec hsum.finite (hsmall.trans (by norm_num))
  rw [← hk] at htoward hclose
  have herror := abs_le.mp hsum.error
  have hclose := abs_le.mp hclose
  have h' := abs_le.mp h
  have hr' := abs_le.mp hr
  generalize value (reciprocalLogTwo * x + half) = q at hsmall htoward hclose herror
  norm_num at herror hsmall
  refine ⟨htoward.trans (hsmall.trans (by norm_num)), ?_, ?_⟩
  · rw [abs_le]
    norm_num
    constructor <;> linarith
  · -- toward zero, so a positive multiple is below the quotient
    have hlt : (k : ℚ) < 116 := by
      rcases le_total 0 q with hq | hq
      · rw [abs_of_nonneg hq] at htoward
        linarith [le_abs_self (k : ℚ)]
      · linarith
    have hlt' : k < 116 := by exact_mod_cast hlt
    omega

/-- Up to one and a half times the logarithm of two, one step in the direction of the sign. -/
private theorem step_bound (h : |value x| ≤ 1.04) (hk : |(k : ℚ)| = 1) :
    |(k : ℚ)| ≤ 151 ∧ |value x - k * (22713 / 32768)| ≤ 1.735 ∧ k ≤ 115 := by
  have hB : |(22713 / 32768 : ℚ)| ≤ 0.694 := by norm_num [abs_of_pos]
  have hprod := abs_mul_le_of_le (D := 0.694) hk.le hB (by norm_num)
  have hle : (k : ℚ) ≤ 1 := (le_abs_self _).trans hk.le
  have hle' : k ≤ 1 := by exact_mod_cast hle
  exact ⟨hk.le.trans (by norm_num), (abs_sub _ _).trans ((add_le_add h hprod).trans (by norm_num)),
    by omega⟩

/-! ### The magnitude -/

/-- The magnitude of a number, by its word without the sign. -/
theorem abs_value_eq_magnitude (hx : Finite x) :
    |value x| = wordValue (x.toBits &&& 0x7fffffff).toNat := by
  have hmask : (0x7fffffff : UInt32).toNat = 2 ^ 31 - 1 := rfl
  rw [UInt32.toNat_and, hmask, Nat.and_two_pow_sub_one_eq_mod, ← hx.abs_value]

/-- Words are compared as the values they stand for. -/
theorem le_magnitude_iff (hx : Finite x) {c : UInt32} :
    c ≤ x.toBits &&& 0x7fffffff ↔ wordValue c.toNat ≤ |value x| := by
  rw [abs_value_eq_magnitude hx, strictMono_wordValue.le_iff_le, UInt32.le_iff_toNat_le]

/-- Words are compared as the values they stand for. -/
theorem lt_magnitude_iff (hx : Finite x) {c : UInt32} :
    c < x.toBits &&& 0x7fffffff ↔ wordValue c.toNat < |value x| := by
  rw [abs_value_eq_magnitude hx, strictMono_wordValue.lt_iff_lt, UInt32.lt_iff_toNat_lt]

/-- A word that is its own magnitude is not below zero, any other not above. -/
theorem value_eq_of_magnitude (hx : Finite x) :
    value x = if x.toBits != (x.toBits &&& 0x7fffffff) then -|value x| else |value x| := by
  have hvalue := hx.value_eq
  rw [← hx.abs_value] at hvalue
  have hmask : (0x7fffffff : UInt32).toNat = 2 ^ 31 - 1 := rfl
  have heq : x.toBits = x.toBits &&& 0x7fffffff ↔ x.toBits.toNat < 2 ^ 31 := by
    rw [← UInt32.toNat_inj, UInt32.toNat_and, hmask, Nat.and_two_pow_sub_one_eq_mod]
    omega
  -- a word is its own magnitude exactly if the first bit is not set
  by_cases hsign : x.toBits.toNat < 2 ^ 31
  · rw [if_neg (by rw [bne_iff_ne, not_not]; exact heq.mpr hsign)]
    rwa [wordSign, if_pos hsign] at hvalue
  · rw [if_pos (by rw [bne_iff_ne]; exact heq.not.mpr hsign)]
    rwa [wordSign, if_neg hsign] at hvalue

/-! ### The cases -/

/-- How the exponential is computed, by the size and the sign of the argument. -/
inductive ExpCase (x : Float32) : Float32 → Prop
  | overflow (hlow : 88 ≤ value x) : ExpCase x infinity
  | underflow (hhigh : value x ≤ -99) : ExpCase x 0
  | nearest {k : ℤ} {half : Float32}
      (hsign : 0 ≤ value x ∧ half = 0.5 ∨ value x ≤ 0 ∧ half = -0.5)
      (hlow : 1.03 ≤ |value x|) (hhigh : |value x| ≤ 104)
      (hk : k = truncate (-2147483648) 2147483647 (reciprocalLogTwo * x + half)) :
      ExpCase x (expReduced k (x - .ofInt k * reductionHigh) (.ofInt k * reductionLow))
  | step {k : ℤ} (hsign : 0 ≤ value x ∧ k = 1 ∨ value x ≤ 0 ∧ k = -1)
      (hlow : 0.3465 ≤ |value x|) (hhigh : |value x| ≤ 1.04) :
      ExpCase x (expReduced k (x - .ofInt k * reductionHigh) (.ofInt k * reductionLow))
  | fraction (hlow : 2 ^ (-13 : ℤ) < |value x|) (hhigh : |value x| ≤ 0.359) :
      ExpCase x (expReduced 0 x 0)
  | sum (hhigh : |value x| ≤ 2 ^ (-13 : ℤ)) : ExpCase x (1 + x)

/-- The multiple that is taken from an argument beyond half of the logarithm of two. -/
private theorem expCase_reduced (hx : Finite x) {negative : Bool}
    (hside : 0 ≤ value x ∧ negative = false ∨ value x ≤ 0 ∧ negative = true)
    (hlow : 0x3eb17218 < x.toBits &&& 0x7fffffff) (hhigh : |value x| ≤ 104)
    (hk : k = if 0x3f851592 < x.toBits &&& 0x7fffffff then
      truncate (-2147483648) 2147483647 (reciprocalLogTwo * x + if negative then -0.5 else 0.5)
      else if negative then -1 else 1) :
    ExpCase x (expReduced k (x - .ofInt k * reductionHigh) (.ofInt k * reductionLow)) := by
  -- more than one and a half times the logarithm of two takes a computed multiple, less takes one
  -- step
  split at hk
  next hmany =>
    have hbound : 1.03 ≤ wordValue 0x3f851592 := by norm_num [wordValue]
    have hlow := hbound.trans ((lt_magnitude_iff hx).mp hmany).le
    refine .nearest ?_ hlow hhigh hk
    exact hside.imp (And.imp_right (by rintro rfl; rfl)) (And.imp_right (by rintro rfl; rfl))
  next honce =>
    have hbound : 0.3465 ≤ wordValue 0x3eb17218 := by norm_num [wordValue]
    have hbound' : wordValue 0x3f851592 ≤ 1.04 := by norm_num [wordValue]
    have hlow := hbound.trans ((lt_magnitude_iff hx).mp hlow).le
    have hhigh := (not_lt.mp ((lt_magnitude_iff hx).not.mp honce)).trans hbound'
    refine .step ?_ hlow hhigh
    subst hk
    exact hside.imp (And.imp_right (by rintro rfl; rfl)) (And.imp_right (by rintro rfl; rfl))

/-- Every number is one of the cases of the exponential. -/
theorem expCase (hx : Finite x) : ExpCase x (exp x) := by
  have hnan := hx.isNaN_eq_false
  have hvalue := value_eq_of_magnitude hx
  unfold exp
  dsimp only
  rw [hnan, if_neg Bool.false_ne_true]
  generalize (x.toBits != (x.toBits &&& 0x7fffffff)) = negative at hvalue ⊢
  -- the branches in order: overflow, underflow, a reduction, the fraction alone, one sum
  split
  next hfar =>
    rw [Bool.and_eq_true, decide_eq_true_iff, le_magnitude_iff hx, Bool.not_eq_true'] at hfar
    have hbound : 88 ≤ wordValue 0x42b17218 := by norm_num [wordValue]
    rw [hfar.2, if_neg Bool.false_ne_true] at hvalue
    exact .overflow (hvalue ▸ hbound.trans hfar.1)
  next hover =>
    -- no overflow: the argument is not large and positive
    split
    next hfar =>
      rw [Bool.and_eq_true, decide_eq_true_iff, le_magnitude_iff hx] at hfar
      have hbound : 99 ≤ wordValue 0x42cff1b5 := by norm_num [wordValue]
      rw [hfar.2, if_pos rfl] at hvalue
      exact .underflow (hvalue ▸ neg_le_neg (hbound.trans hfar.1))
    next hunder =>
      have hside : 0 ≤ value x ∧ negative = false ∨ value x ≤ 0 ∧ negative = true := by
        cases negative with
        | true => exact .inr ⟨hvalue.trans_le (neg_nonpos.mpr (abs_nonneg _)), rfl⟩
        | false => exact .inl ⟨hvalue.symm ▸ abs_nonneg _, rfl⟩
      -- nor is there underflow; what is left is told apart by the magnitude alone
      split
      next hreduced =>
        -- the limit on the other side of zero is the larger one, so it bounds both sides
        have hrange : ¬0x42cff1b5 ≤ x.toBits &&& 0x7fffffff := by
          intro hle
          have hle' : 0x42b17218 ≤ x.toBits &&& 0x7fffffff := UInt32.le_trans (by decide) hle
          cases negative with
          | true => exact hunder (by rw [decide_eq_true hle, Bool.and_true])
          | false => exact hover (by rw [decide_eq_true hle', Bool.not_false, Bool.and_true])
        rw [le_magnitude_iff hx, not_le] at hrange
        have hbound : wordValue 0x42cff1b5 ≤ 104 := by norm_num [wordValue]
        exact expCase_reduced hx hside hreduced (hrange.le.trans hbound) rfl
      next hhalf =>
        have hbound : wordValue 0x3eb17218 ≤ 0.359 := by norm_num [wordValue]
        have hsquare : wordValue 0x39000000 = 2 ^ (-13 : ℤ) := by norm_num [wordValue]
        have hhigh := (not_lt.mp ((lt_magnitude_iff hx).not.mp hhalf)).trans hbound
        split
        next hlow =>
          exact .fraction (((lt_magnitude_iff hx).mp hlow).trans_le' hsquare.ge) hhigh
        next hlow =>
          exact .sum ((not_lt.mp ((lt_magnitude_iff hx).not.mp hlow)).trans_eq hsquare)

/-! ### The exponential -/

/-- Up to 80 the exponential is a number, with room for a make-up gain. -/
theorem exp_bound (hx : Finite x) (h : value x ≤ 80) :
    Finite (exp x) ∧ |value (exp x)| ≤ 2 ^ (120 : ℤ) := by
  have hzero : |value (0 : Float32)| ≤ 0.001 :=
    (near_zero.abs_value_le abs_zero.le).trans (by norm_num)
  have hcase := expCase hx
  generalize exp x = y at hcase ⊢
  cases hcase with
  -- the reduced cases are bounded by their remainder, the last one by its two terms
  | overflow hlow => exact absurd (hlow.trans h) (by norm_num)
  | underflow => exact ⟨near_zero.finite, hzero.trans (by norm_num)⟩
  | nearest hsign _ hhigh hk =>
    refine reduced_bound hx ?_
    rcases hsign with ⟨-, rfl⟩ | ⟨-, rfl⟩
    · exact multiple_bound hx hhigh h near_half (by norm_num [abs_of_pos]) hk
    · exact multiple_bound hx hhigh h near_neg_half (by norm_num [abs_of_pos]) hk
  | step hsign _ hhigh =>
    refine reduced_bound hx (step_bound hhigh ?_)
    rcases hsign with ⟨-, rfl⟩ | ⟨-, rfl⟩
    · norm_num
    · norm_num
  | fraction _ hhigh =>
    exact expReduced_bound hx near_zero.finite (hhigh.trans (by norm_num)) hzero (by decide)
  | sum hhigh =>
    have hsum : |1 + value x| ≤ 2 :=
      abs_add_le_of_le (abs_one (α := ℚ)).le hhigh (by norm_num)
    have hnear := near_one.add (near_value hx) hsum 2 (by norm_num) (by norm_num)
    exact ⟨hnear.finite, (hnear.abs_value_le hsum).trans (by norm_num)⟩

end DynamicRange.Binary
