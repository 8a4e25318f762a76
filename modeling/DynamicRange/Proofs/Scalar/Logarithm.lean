import DynamicRange.Scalar.Logarithm
import DynamicRange.Proofs.Scalar.Error
import DynamicRange.Proofs.Scalar.Word

/-!
# The logarithm is monotone

Exact arithmetic would give, for `2 ^ j * (1 + u)`, a rational function of `u` that grows with `u`,
and `j` times a constant. What is computed is off, but by less than half of what the function grows
from one number to the next. So the logarithm of single precision never falls, although no step of
it is exact: from one number to the next within a power of two the rounding of the last steps keeps
the order, and from one power to the next the growth exceeds all errors.

## Key results

- `ln_mono`: the logarithm of normal numbers
-/

namespace DynamicRange.Binary

open Scalar

/-! ### The exact function -/

/-- The polynomial that the logarithm adds to `2`, as a function of `s = u / (2 + u)`. -/
def lnTail (s : ℚ) : ℚ :=
  s * s * (5592405 / 8388608 + s * s * (s * s) * (4781303 / 16777216)) +
    s * s * (s * s) * (13422099 / 33554432 + s * s * (s * s) * (8146707 / 33554432))

/-- The logarithm of `1 + u`. -/
def lnFraction (u : ℚ) : ℚ := u / (2 + u) * (2 + lnTail (u / (2 + u)))

/-- The part of the logarithm of two whose product with an exponent is exact. -/
def lnTwoHigh : ℚ := 90851 / 131072

/-- The other part. -/
def lnTwoLow : ℚ := 9959377 / 1099511627776

/-- The range of the fraction: `1 + u` is between the roots of a half and of two. -/
def Reduced (u : ℚ) : Prop := -0.29289324 ≤ u ∧ u ≤ 0.41421342

variable {u u' : ℚ}

/-- The divisor of the ratio is positive. -/
theorem Reduced.two_add_pos (h : Reduced u) : 0 < 2 + u := by
  have := h.1
  norm_num at this
  linarith

/-- The ratio of a reduced fraction is small. -/
theorem Reduced.abs_ratio_le (h : Reduced u) : |u / (2 + u)| ≤ 0.17158 := by
  have hpos := h.two_add_pos
  obtain ⟨hlow, hhigh⟩ := h
  rw [abs_le, le_div_iff₀ hpos, div_le_iff₀ hpos]
  constructor <;> linarith

/-- The logarithm grows with its argument, at a rate of no less than `0.6862`. -/
theorem lnFraction_growth (h : Reduced u) (h' : Reduced u') (hle : u ≤ u') :
    0.6862 * (u' - u) ≤ lnFraction u' - lnFraction u := by
  have hpos := h.two_add_pos
  have hpos' := h'.two_add_pos
  obtain ⟨s, hs⟩ : ∃ s, u / (2 + u) = s := ⟨_, rfl⟩
  obtain ⟨s', hs'⟩ : ∃ s, u' / (2 + u') = s := ⟨_, rfl⟩
  -- the ratio grows with the fraction, at a rate that the divisors bound
  have hgrowth : 0.3431 * (u' - u) ≤ s' - s := by
    have hsub : s' - s = 2 * (u' - u) / ((2 + u') * (2 + u)) := by
      rw [← hs, ← hs']
      field_simp
      ring
    rw [hsub, le_div_iff₀ (by positivity)]
    have hprod : (2 + u') * (2 + u) ≤ 2.41422 * 2.41422 := by
      have := h.2
      have := h'.2
      gcongr <;> linarith
    nlinarith [sub_nonneg.mpr hle]
  have hsle : s ≤ s' := by
    have := sub_nonneg.mpr hle
    linarith
  -- the rest is a sum of odd powers with positive coefficients
  have hodd (t : ℚ) : t * (2 + lnTail t) = 2 * t + 5592405 / 8388608 * t ^ 3 +
      13422099 / 33554432 * t ^ 5 + 4781303 / 16777216 * t ^ 7 + 8146707 / 33554432 * t ^ 9 := by
    rw [lnTail]
    ring
  have h3 : s ^ 3 ≤ s' ^ 3 := (Odd.pow_le_pow (by decide)).mpr hsle
  have h5 : s ^ 5 ≤ s' ^ 5 := (Odd.pow_le_pow (by decide)).mpr hsle
  have h7 : s ^ 7 ≤ s' ^ 7 := (Odd.pow_le_pow (by decide)).mpr hsle
  have h9 : s ^ 9 ≤ s' ^ 9 := (Odd.pow_le_pow (by decide)).mpr hsle
  rw [lnFraction, lnFraction, hs, hs', hodd, hodd]
  linarith

/-- The other form of the logarithm: the fraction itself, and what is to be taken from it. -/
theorem lnFraction_eq (h : Reduced u) :
    u / (2 + u) * (1 / 2 * u * u + lnTail (u / (2 + u))) - 1 / 2 * u * u + u = lnFraction u := by
  have hpos := h.two_add_pos
  rw [lnFraction]
  field_simp
  ring

/-! ### The computed steps -/

/-- The magnitude of a reduced fraction. -/
theorem Reduced.abs_fraction_le (h : Reduced u) : |u| ≤ 0.41422 := by
  obtain ⟨hlow, hhigh⟩ := h
  rw [abs_le]
  constructor <;> linarith

section Steps

variable {f s k z w : Float32} {S Z W : ℚ} {j : ℤ}

/-- The quotient that the polynomial is in. -/
private theorem near_ratio (hf : Near f u 0) (hu : Reduced u) :
    Near (f / (2 + f)) (u / (2 + u)) 1.96e-8 := by
  have hpos := hu.two_add_pos
  -- the divisor is rounded once, and it stays away from zero
  have hsum : |2 + u| ≤ 2.41422 :=
    abs_add_le_of_le (abs_of_pos two_pos).le hu.abs_fraction_le (by norm_num)
  have hlow : 1.7 + 2 ^ (-23 : ℤ) ≤ |2 + u| := by
    rw [abs_of_pos hpos]
    have := hu.1
    norm_num at this ⊢
    linarith
  have hden : Near (2 + f) (2 + u) (2 ^ (-23 : ℤ)) :=
    (near_two.add hf hsum 2 (by norm_num) (by norm_num)).mono (by norm_num)
  exact (hf.div hden hlow (by norm_num) hu.abs_ratio_le (-2) (by norm_num) (by norm_num)).mono
    (by norm_num)

/-- The terms of odd degree, in the square `z` and its square `w`. -/
private theorem near_oddTail (hz : Near z Z 7.7e-9) (hZ : |Z| ≤ 0.02944) (hw : Near w W 4.9e-10)
    (hW : |W| ≤ 8.67e-4) :
    Near (z * (0.66666662693 + w * 0.28498786688))
      (Z * (5592405 / 8388608 + W * (4781303 / 16777216))) 7.0e-9 ∧
      |Z * (5592405 / 8388608 + W * (4781303 / 16777216))| ≤ 0.01965 := by
  have hc₀ : Near 0.66666662693 (5592405 / 8388608) 0 := by
    have h : unpacked (0.66666662693 : Float32) = .finite .positive 11184810 (-24) (by decide) :=
      rfl
    exact near_of_unpacked h (by norm_num [signed])
  have hc₁ : Near 0.28498786688 (4781303 / 16777216) 0 := by
    have h : unpacked (0.28498786688 : Float32) = .finite .positive 9562606 (-25) (by decide) :=
      rfl
    exact near_of_unpacked h (by norm_num [signed])
  -- each of the operations in turn, inside first: the bound on its result, then its error
  have hC₁ : |(4781303 / 16777216 : ℚ)| ≤ 0.28499 := by norm_num [abs_of_pos]
  have hB := abs_mul_le_of_le (D := 2.48e-4) hW hC₁ (by norm_num)
  have h₁ := (hw.mul hc₁ hW hC₁ (-11) (by norm_num) (by norm_num)).mono
    (show _ ≤ (1.6e-10 : ℚ) by norm_num)
  have hC₀ : |(5592405 / 8388608 : ℚ)| ≤ 0.66667 := by norm_num [abs_of_pos]
  have hS := abs_add_le_of_le (D := 0.667) hC₀ hB (by norm_num)
  have h₀ := (hc₀.add h₁ hS 0 (by norm_num) (by norm_num)).mono
    (show _ ≤ (3.0e-8 : ℚ) by norm_num)
  exact ⟨(hz.mul h₀ hZ hS (-5) (by norm_num) (by norm_num)).mono (by norm_num),
    abs_mul_le_of_le hZ hS (by norm_num)⟩

/-- The terms of even degree. -/
private theorem near_evenTail (hw : Near w W 4.9e-10) (hW : |W| ≤ 8.67e-4) :
    Near (w * (0.40000972152 + w * 0.24279078841))
      (W * (13422099 / 33554432 + W * (8146707 / 33554432))) 2.3e-10 ∧
      |W * (13422099 / 33554432 + W * (8146707 / 33554432))| ≤ 3.48e-4 := by
  have hc₀ : Near 0.40000972152 (13422099 / 33554432) 0 := by
    have h : unpacked (0.40000972152 : Float32) = .finite .positive 13422099 (-25) (by decide) :=
      rfl
    exact near_of_unpacked h (by norm_num [signed])
  have hc₁ : Near 0.24279078841 (8146707 / 33554432) 0 := by
    have h : unpacked (0.24279078841 : Float32) = .finite .positive 16293414 (-26) (by decide) :=
      rfl
    exact near_of_unpacked h (by norm_num [signed])
  -- again each operation in turn, inside first
  have hC₁ : |(8146707 / 33554432 : ℚ)| ≤ 0.2428 := by norm_num [abs_of_pos]
  have hB := abs_mul_le_of_le (D := 2.2e-4) hW hC₁ (by norm_num)
  have h₁ := (hw.mul hc₁ hW hC₁ (-12) (by norm_num) (by norm_num)).mono
    (show _ ≤ (1.3e-10 : ℚ) by norm_num)
  have hC₀ : |(13422099 / 33554432 : ℚ)| ≤ 0.40001 := by norm_num [abs_of_pos]
  have hS := abs_add_le_of_le (D := 0.4003) hC₀ hB (by norm_num)
  have h₀ := (hc₀.add h₁ hS (-1) (by norm_num) (by norm_num)).mono
    (show _ ≤ (1.51e-8 : ℚ) by norm_num)
  exact ⟨(hw.mul h₀ hW hS (-11) (by norm_num) (by norm_num)).mono (by norm_num),
    abs_mul_le_of_le hW hS (by norm_num)⟩

/-- The polynomial of the ratio, computed, and how large it is. -/
private theorem near_tail (hs : Near s S 1.96e-8) (hS : |S| ≤ 0.17158) :
    Near (s * s * (0.66666662693 + s * s * (s * s) * 0.28498786688) +
      s * s * (s * s) * (0.40000972152 + s * s * (s * s) * 0.24279078841)) (lnTail S) 8.2e-9 ∧
      |lnTail S| ≤ 0.02 := by
  have hZ : |S * S| ≤ 0.02944 := abs_mul_le_of_le hS hS (by norm_num)
  have hW : |S * S * (S * S)| ≤ 8.67e-4 := abs_mul_le_of_le hZ hZ (by norm_num)
  have hz : Near (s * s) (S * S) 7.7e-9 :=
    (hs.mul hs hS hS (-5) (by norm_num) (by norm_num)).mono (by norm_num)
  have hw : Near (s * s * (s * s)) (S * S * (S * S)) 4.9e-10 :=
    (hz.mul hz hZ hZ (-10) (by norm_num) (by norm_num)).mono (by norm_num)
  -- the two halves are computed apart and added in the end
  obtain ⟨hodd, hodd'⟩ := near_oddTail hz hZ hw hW
  obtain ⟨heven, heven'⟩ := near_evenTail hw hW
  have htail := abs_add_le_of_le (D := 0.02) hodd' heven' (by norm_num)
  exact ⟨(hodd.add heven htail (-5) (by norm_num) (by norm_num)).mono (by norm_num), htail⟩

/-- Half of the square of the fraction, computed, and how large it is. -/
private theorem near_halfSquare (hf : Near f u 0) (hu : Reduced u) :
    Near (0.5 * f * f) (1 / 2 * u * u) 6.9e-9 ∧ |1 / 2 * u * u| ≤ 0.0858 := by
  have hhalf : |(1 / 2 : ℚ)| ≤ 0.5 := by norm_num [abs_of_pos]
  have hv := abs_mul_le_of_le (D := 0.20711) hhalf hu.abs_fraction_le (by norm_num)
  have h := (near_half.mul hf hhalf hu.abs_fraction_le (-2) (by norm_num) (by norm_num)).mono
    (show _ ≤ (7.46e-9 : ℚ) by norm_num)
  exact ⟨(h.mul hf hv hu.abs_fraction_le (-3) (by norm_num) (by norm_num)).mono (by norm_num),
    abs_mul_le_of_le hv hu.abs_fraction_le (by norm_num)⟩

/-- The lower part of the logarithm of two is exact. -/
theorem near_logTwoLow : Near logTwoLow lnTwoLow 0 := by
  have h : unpacked logTwoLow = .finite .positive 9959377 (-40) (by decide) := rfl
  exact near_of_unpacked h (by norm_num [signed, lnTwoLow])

/-- What is added to the fraction. -/
private theorem near_correction (hf : Near f u 0) (hu : Reduced u) (hk : Near k j 0)
    (hj : |(j : ℚ)| ≤ 128) :
    let s := f / (2 + f)
    let z := s * s
    let w := z * z
    let r := z * (0.66666662693 + w * 0.28498786688) + w * (0.40000972152 + w * 0.24279078841)
    let halfSquare := 0.5 * f * f
    Near (s * (halfSquare + r) + k * logTwoLow - halfSquare)
      (lnFraction u - u + j * lnTwoLow) 1.8e-8 := by
  intro s z w r halfSquare
  have hs := near_ratio hf hu
  have hS := hu.abs_ratio_le
  obtain ⟨hr, hR⟩ := near_tail hs hS
  obtain ⟨hh, hH⟩ := near_halfSquare hf hu
  -- a bound and an error for each operation, in the order in which they are done
  have hL : |lnTwoLow| ≤ 9.06e-6 := by norm_num [lnTwoLow, abs_of_pos]
  have hq := (hh.add hr (abs_add_le_of_le (D := 0.1058) hH hR (by norm_num)) (-3) (by norm_num)
    (by norm_num)).mono (show _ ≤ (1.89e-8 : ℚ) by norm_num)
  have hQ := abs_add_le_of_le (D := 0.1058) hH hR (by norm_num)
  have hp := (hs.mul hq hS hQ (-5) (by norm_num) (by norm_num)).mono
    (show _ ≤ (6.3e-9 : ℚ) by norm_num)
  have hP := abs_mul_le_of_le (D := 0.01816) hS hQ (by norm_num)
  have hkl := (hk.mul near_logTwoLow hj hL (-9) (by norm_num) (by norm_num)).mono
    (show _ ≤ (5.9e-11 : ℚ) by norm_num)
  have hKL := abs_mul_le_of_le (D := 0.00116) hj hL (by norm_num)
  have hu' := (hp.add hkl (abs_add_le_of_le (D := 0.01932) hP hKL (by norm_num)) (-5)
    (by norm_num) (by norm_num)).mono (show _ ≤ (7.3e-9 : ℚ) by norm_num)
  have hU := abs_add_le_of_le (D := 0.01932) hP hKL (by norm_num)
  have hdiff : |u / (2 + u) * (1 / 2 * u * u + lnTail (u / (2 + u))) + j * lnTwoLow -
      1 / 2 * u * u| ≤ 0.10512 := (abs_sub _ _).trans ((add_le_add hU hH).trans (by norm_num))
  have h := (hu'.sub hh hdiff (-3) (by norm_num) (by norm_num)).mono
    (show _ ≤ (1.8e-8 : ℚ) by norm_num)
  -- what is bounded so far follows the order of the operations
  have heq : lnFraction u - u + j * lnTwoLow =
      u / (2 + u) * (1 / 2 * u * u + lnTail (u / (2 + u))) + j * lnTwoLow - 1 / 2 * u * u := by
    rw [← lnFraction_eq hu]
    ring
  rw [heq]
  exact h

end Steps

/-! ### The reduced argument -/

/-- The exponent that is split off a normal number, by its word. -/
def splitExponent (w : ℕ) : ℤ := (w + 0x4afb0d : ℕ) / 2 ^ 23 - 127

/-- The fraction that remains, in units of `2 ^ -24`. -/
def splitUnits (w : ℕ) : ℤ :=
  let units : ℤ := (w + 0x4afb0d : ℕ) % 2 ^ 23 - 0x4afb0d
  if units < 0 then units else 2 * units

/-- The fraction that remains of a word. -/
def splitFraction (w : ℕ) : ℚ := splitUnits w / 2 ^ 24

/-- The fraction that remains is reduced. -/
theorem reduced_splitFraction (w : ℕ) : Reduced (splitFraction w) := by
  -- the units are between the bounds of the two intervals they may come from
  have hunits : -4913933 ≤ splitUnits w ∧ splitUnits w ≤ 6949348 := by
    unfold splitUnits
    dsimp only
    split <;> omega
  obtain ⟨hlow, hhigh⟩ := hunits
  have hlow' : (-4913933 : ℚ) ≤ splitUnits w := by exact_mod_cast hlow
  have hhigh' : (splitUnits w : ℚ) ≤ 6949348 := by exact_mod_cast hhigh
  unfold Reduced splitFraction
  constructor
  · rw [le_div_iff₀ (by positivity)]
    linarith
  · rw [div_le_iff₀ (by positivity)]
    linarith

/-- The word of the mantissa that remains. -/
theorem wordValue_split (w : ℕ) :
    wordValue ((w + 0x4afb0d) % 2 ^ 23 + 0x3f3504f3) = 1 + splitFraction w := by
  obtain ⟨r, hr⟩ : ∃ r, (w + 0x4afb0d) % 2 ^ 23 = r := ⟨_, rfl⟩
  have hlt : r < 2 ^ 23 := by omega
  have hr' : ((w + 0x4afb0d : ℕ) : ℤ) % 2 ^ 23 = r := by exact_mod_cast hr
  rw [hr, splitFraction, splitUnits, hr', wordValue, if_neg (by omega)]
  -- a mantissa above the root of two is halved, any other kept
  by_cases hneg : r < 0x4afb0d
  -- halved: the exponent field is one less
  · have hq : (r + 0x3f3504f3) / 2 ^ 23 = 126 := by omega
    have hm : 2 ^ 23 + (r + 0x3f3504f3) % 2 ^ 23 = r + 11863283 := by omega
    rw [if_pos (by omega), hq, hm]
    push_cast
    norm_num
    ring
  · have hq : (r + 0x3f3504f3) / 2 ^ 23 = 127 := by omega
    have hm : 2 ^ 23 + (r + 0x3f3504f3) % 2 ^ 23 + 0x4afb0d = r + 2 ^ 23 := by omega
    have hm' : ((2 ^ 23 + (r + 0x3f3504f3) % 2 ^ 23 : ℕ) : ℚ) = r + 2 ^ 23 - 0x4afb0d := by
      rw [eq_sub_iff_add_eq]
      exact_mod_cast hm
    rw [if_neg (by omega), hq, hm']
    push_cast
    norm_num
    ring

/-- Numbers in order have split parts in lexicographic order. -/
theorem split_lt {w w' : ℕ} (h : w < w') :
    splitExponent w + 1 ≤ splitExponent w' ∨
      splitExponent w = splitExponent w' ∧ splitFraction w + 2 ^ (-24 : ℤ) ≤ splitFraction w' := by
  -- either both have one exponent, or the first exponent is smaller
  by_cases hq : (w + 0x4afb0d) / 2 ^ 23 = (w' + 0x4afb0d) / 2 ^ 23
  · right
    have hunits : splitUnits w + 1 ≤ splitUnits w' := by
      unfold splitUnits
      dsimp only
      split <;> split <;> omega
    have hunits' : (splitUnits w : ℚ) + 1 ≤ splitUnits w' := by exact_mod_cast hunits
    refine ⟨by unfold splitExponent; omega, ?_⟩
    rw [splitFraction, splitFraction, le_div_iff₀ (by positivity), add_mul]
    norm_num
    linarith
  · left
    unfold splitExponent
    omega

/-! ### The computed logarithm -/

/-- The exponent that is split off a normal number is that of a single-precision number. -/
theorem abs_splitExponent_le {w : ℕ} (hlow : 2 ^ 23 ≤ w) (hhigh : w < 255 * 2 ^ 23) :
    |splitExponent w| ≤ 128 := by
  unfold splitExponent
  exact abs_le.mpr ⟨by omega, by omega⟩

/-- The two shifted words, as natural numbers: nothing is carried out of a word. -/
private theorem toNat_shifted {b : UInt32} (h : b.toNat < 255 * 2 ^ 23) :
    ((b + (0x3f800000 - 0x3f3504f3)) >>> 23).toNat = (b.toNat + 0x4afb0d) / 2 ^ 23 ∧
      (((b + (0x3f800000 - 0x3f3504f3)) &&& 0x007fffff) + 0x3f3504f3).toNat =
        (b.toNat + 0x4afb0d) % 2 ^ 23 + 0x3f3504f3 := by
  have hshifted : (b + (0x3f800000 - 0x3f3504f3)).toNat = b.toNat + 0x4afb0d := by
    rw [UInt32.toNat_add]
    show (b.toNat + 0x4afb0d) % 2 ^ 32 = _
    omega
  constructor
  · rw [UInt32.toNat_shiftRight, hshifted, Nat.shiftRight_eq_div_pow]
    rfl
  · have hmask : (0x007fffff : UInt32).toNat = 2 ^ 23 - 1 := rfl
    rw [UInt32.toNat_add, UInt32.toNat_and, hshifted, hmask, Nat.and_two_pow_sub_one_eq_mod]
    show ((b.toNat + 0x4afb0d) % 2 ^ 23 + 0x3f3504f3) % 2 ^ 32 = _
    omega

/-- The fraction is exact. -/
private theorem near_fraction {x : Float32} {w : ℕ} (hx : Near x (1 + splitFraction w) 0) :
    Near (x - 1) (splitFraction w) 0 := by
  have hreduced := (reduced_splitFraction w).abs_fraction_le
  -- the difference is a number itself, so the subtraction is exact
  have hnumber : IsNumber .binary32 (splitFraction w) := by
    refine ⟨splitUnits w, -24, ?_, by decide, ?_⟩
    · have hbits : Float.Model.Format.binary32.mantissaBits = 24 := rfl
      have hunits : splitFraction w * 2 ^ 24 = splitUnits w := by
        rw [splitFraction]
        norm_num
      have habs : |(splitUnits w : ℚ)| ≤ 2 ^ 24 := by
        rw [← hunits, abs_mul]
        norm_num [abs_of_pos]
        linarith
      rw [hbits]
      exact_mod_cast habs
    · rw [splitFraction]
      norm_num
      ring
  have hsub : value x - value (1 : Float32) = splitFraction w := by
    rw [hx.value_eq, near_one.value_eq]
    ring
  have hnear : nearest .binary32 (value x - value (1 : Float32)) = splitFraction w := by
    rw [hsub, nearest_of_isNumber hnumber]
  -- the exact difference is a number, so rounding does not move it
  have hrounds := sub_rounds hx.finite near_one.finite (by
    rw [hsub]
    exact nearest_lt_overflow (k := 0) (hreduced.trans (by norm_num)) (by decide))
  refine ⟨hrounds.finite, ?_⟩
  rw [hrounds.value_eq, hnear, sub_self, abs_zero]

/-- The product with an exponent is exact. -/
private theorem near_mul_logTwoHigh {k : Float32} {j : ℤ} (hk : Near k j 0) (hj : |j| ≤ 128) :
    Near (k * logTwoHigh) (j * lnTwoHigh) 0 := by
  have hparts : unpacked logTwoHigh = .finite .positive 11628928 (-24) (by decide) := rfl
  have hhigh : Near logTwoHigh lnTwoHigh 0 :=
    near_of_unpacked hparts (by norm_num [signed, lnTwoHigh])
  -- the upper part has few bits, so a product with an exponent has no more than a mantissa
  have hnumber : IsNumber .binary32 (j * lnTwoHigh) := by
    refine ⟨j * 90851, -17, ?_, by decide, ?_⟩
    · have hbits : Float.Model.Format.binary32.mantissaBits = 24 := rfl
      rw [hbits]
      have := abs_le.mp hj
      exact abs_le.mpr ⟨by omega, by omega⟩
    · rw [lnTwoHigh]
      push_cast
      norm_num
      ring
  have hprod : value k * value logTwoHigh = j * lnTwoHigh := by rw [hk.value_eq, hhigh.value_eq]
  have hj' : |(j : ℚ)| ≤ 128 := by exact_mod_cast hj
  have hrounds := mul_rounds hk.finite hhigh.finite (by
    rw [hprod]
    refine nearest_lt_overflow (k := 7) ?_ (by decide)
    refine abs_mul_le_of_le hj' (C := 1) ?_ (by norm_num)
    norm_num [lnTwoHigh, abs_of_pos])
  refine ⟨hrounds.finite, ?_⟩
  rw [hrounds.value_eq, hprod, nearest_of_isNumber hnumber, sub_self, abs_zero]

/-- The greatest reduced fraction. -/
theorem reduced_top : Reduced 0.41421342 := ⟨by norm_num, le_refl _⟩

/-- The least reduced fraction. -/
theorem reduced_bottom : Reduced (-0.29289324) := ⟨le_refl _, by norm_num⟩

/-- The logarithm of a reduced fraction lies between those of the least and of the greatest. -/
theorem Reduced.lnFraction_mem (h : Reduced u) :
    lnFraction (-0.29289324) ≤ lnFraction u ∧ lnFraction u ≤ lnFraction 0.41421342 := by
  have hhigh := lnFraction_growth h reduced_top h.2
  have hlow := lnFraction_growth reduced_bottom h h.1
  obtain ⟨hl, hr⟩ := h
  constructor <;> linarith

/-- The logarithm of one plus a reduced fraction is small. -/
theorem Reduced.abs_lnFraction_le (h : Reduced u) : |lnFraction u| ≤ 0.347 := by
  obtain ⟨hlow, hhigh⟩ := h.lnFraction_mem
  have hhigh' : lnFraction 0.41421342 ≤ 0.347 := by norm_num [lnFraction, lnTail]
  have hlow' : -0.347 ≤ lnFraction (-0.29289324) := by norm_num [lnFraction, lnTail]
  exact abs_le.mpr ⟨hlow'.trans hlow, hhigh.trans hhigh'⟩

/-- What the fraction is added to leaves the sum below a half. -/
theorem abs_corrected_le {a : ℚ} {j : ℤ} (hu : Reduced u) (hj : |(j : ℚ)| ≤ 128)
    (ha : |a - (lnFraction u - u + j * lnTwoLow)| ≤ 1.8e-8) : |a + u| ≤ 2 ^ (-1 : ℤ) := by
  have hlow : |j * lnTwoLow| ≤ 0.00116 :=
    abs_mul_le_of_le hj (C := 9.06e-6) (by norm_num [lnTwoLow, abs_of_pos]) (by norm_num)
  have hsplit : a + u = lnFraction u + j * lnTwoLow + (a - (lnFraction u - u + j * lnTwoLow)) := by
    ring
  rw [hsplit]
  exact abs_add_le_of_le (abs_add_le_of_le hu.abs_lnFraction_le hlow (le_refl _)) ha (by norm_num)

/-- The last two steps, each rounded to nearest. -/
private theorem rounds_last {correction f high : Float32} {j : ℤ}
    (hcorrection : Near correction (lnFraction u - u + j * lnTwoLow) 1.8e-8) (hf : Near f u 0)
    (hhigh : Near high (j * lnTwoHigh) 0) (hu : Reduced u) (hj : |(j : ℚ)| ≤ 128) :
    Rounds (correction + f + high)
      (nearest .binary32 (value correction + u) + j * lnTwoHigh) := by
  -- neither of the two sums overflows: the first is below a half, the second below 256
  have hsum : |value correction + value f| ≤ 2 ^ (-1 : ℤ) := by
    rw [hf.value_eq]
    exact abs_corrected_le hu hj hcorrection.error
  have hfirst := add_rounds hcorrection.finite hf.finite (nearest_lt_overflow hsum (by decide))
  have hsmall : |value (correction + f)| ≤ 2 ^ (-1 : ℤ) := by
    rw [hfirst.value_eq]
    exact abs_nearest_le (isNumber_zpow (by decide)) hsum
  have hhigh' : |value high| ≤ 128 := by
    rw [hhigh.value_eq]
    exact abs_mul_le_of_le hj (C := 1) (by norm_num [lnTwoHigh, abs_of_pos]) (by norm_num)
  have hlast := add_rounds hfirst.finite hhigh.finite (nearest_lt_overflow (k := 8)
    (abs_add_le_of_le hsmall hhigh' (by norm_num)) (by decide))
  rwa [hfirst.value_eq, hf.value_eq, hhigh.value_eq] at hlast

/-- The steps of the logarithm, of which the last two round to nearest. -/
theorem lnNormal_spec {b : UInt32} (hlow : 2 ^ 23 ≤ b.toNat) (hhigh : b.toNat < 255 * 2 ^ 23) :
    ∃ a : ℚ, |a - (lnFraction (splitFraction b.toNat) - splitFraction b.toNat +
        splitExponent b.toNat * lnTwoLow)| ≤ 1.8e-8 ∧
      Rounds (lnNormal 0 b) (nearest .binary32 (a + splitFraction b.toNat) +
        splitExponent b.toNat * lnTwoHigh) := by
  obtain ⟨hexponent, hmantissa⟩ := toNat_shifted hhigh
  have hj := abs_splitExponent_le hlow hhigh
  have hj' : |(splitExponent b.toNat : ℚ)| ≤ 128 := by exact_mod_cast hj
  have hreduced := reduced_splitFraction b.toNat
  unfold lnNormal
  dsimp only
  -- the exponent and the fraction are exact
  have hk : Near (Float32.ofInt ((0 : ℤ) + ((b + (0x3f800000 - 0x3f3504f3)) >>> 23).toNat - 127))
      (splitExponent b.toNat) 0 := by
    rw [hexponent, zero_add, Int.natCast_ediv]
    obtain ⟨hfinite, hvalue⟩ := ofInt_exact (hj.trans (by norm_num))
    refine ⟨hfinite, ?_⟩
    show |value (Float32.ofInt (splitExponent b.toNat)) - _| ≤ 0
    rw [hvalue, sub_self, abs_zero]
  have hf : Near (Float32.ofBits (((b + (0x3f800000 - 0x3f3504f3)) &&& 0x007fffff) + 0x3f3504f3) - 1)
      (splitFraction b.toNat) 0 := by
    obtain ⟨hfinite, hvalue⟩ := ofBits_spec (b := ((b + (0x3f800000 - 0x3f3504f3)) &&& 0x007fffff) +
      0x3f3504f3) (by rw [hmantissa]; omega)
    rw [hmantissa, wordValue_split] at hvalue
    exact near_fraction ⟨hfinite, by rw [hvalue, sub_self, abs_zero]⟩
  -- from here on it is arithmetic on the exponent, the fraction and the correction alone
  generalize Float32.ofInt _ = k at hk ⊢
  generalize Float32.ofBits _ - 1 = f at hf ⊢
  have ha := near_correction hf hreduced hk hj'
  have hkh := near_mul_logTwoHigh hk hj
  generalize splitFraction b.toNat = u at hf hreduced ha ⊢
  generalize splitExponent b.toNat = j at hj' ha hkh ⊢
  exact ⟨_, ha.error, rounds_last ha hf hkh hreduced hj'⟩

/-! ### Order -/

/-- What is computed keeps the lexicographic order of the parts. -/
private theorem rounded_mono {a a' : ℚ} {j j' : ℤ} (hu : Reduced u) (hu' : Reduced u')
    (hj : |(j : ℚ)| ≤ 128) (hj' : |(j' : ℚ)| ≤ 128)
    (ha : |a - (lnFraction u - u + j * lnTwoLow)| ≤ 1.8e-8)
    (ha' : |a' - (lnFraction u' - u' + j' * lnTwoLow)| ≤ 1.8e-8)
    (h : j + 1 ≤ j' ∨ j = j' ∧ u + 2 ^ (-24 : ℤ) ≤ u') :
    nearest .binary32 (a + u) + j * lnTwoHigh ≤ nearest .binary32 (a' + u') + j' * lnTwoHigh := by
  have hsub := abs_le.mp ha
  have hsub' := abs_le.mp ha'
  rcases h with hlt | ⟨rfl, hle⟩
  · -- the exponent moves, and the rest falls by less
    have hround := abs_le.mp (nearest_near (abs_corrected_le hu hj ha) (by decide))
    have hround' := abs_le.mp (nearest_near (abs_corrected_le hu' hj' ha') (by decide))
    have hgap : 6.6e-8 ≤ lnFraction (-0.29289324) - lnFraction 0.41421342 +
        (lnTwoHigh + lnTwoLow) := by
      norm_num [lnFraction, lnTail, lnTwoHigh, lnTwoLow]
    have hlog : (lnTwoHigh + lnTwoLow) * 1 ≤ (lnTwoHigh + lnTwoLow) * (j' - j) := by
      have hlt' : (j : ℚ) + 1 ≤ j' := by exact_mod_cast hlt
      have hpos : 0 ≤ lnTwoHigh + lnTwoLow := by norm_num [lnTwoHigh, lnTwoLow]
      exact mul_le_mul_of_nonneg_left (by linarith) hpos
    have hmem := hu.lnFraction_mem
    have hmem' := hu'.lnFraction_mem
    norm_num at hround hround' hsub hsub' hgap
    linarith
  · -- within one exponent the growth exceeds the errors before any rounding
    have hgrowth := lnFraction_growth hu hu' ((le_add_of_nonneg_right (by positivity)).trans hle)
    norm_num at hle
    gcongr
    exact nearest_mono (by linarith)

/-- The logarithm of a word keeps the order of normal numbers. -/
theorem lnNormal_mono {b b' : UInt32} (hlow : 2 ^ 23 ≤ b.toNat) (hle : b.toNat ≤ b'.toNat)
    (hhigh : b'.toNat < 255 * 2 ^ 23) :
    value (lnNormal 0 b) ≤ value (lnNormal 0 b') := by
  -- of two words in order the split parts are in order, and so is what is computed from them
  rcases hle.lt_or_eq with hlt | heq
  · obtain ⟨a, ha, hrounds⟩ := lnNormal_spec hlow (hle.trans_lt hhigh)
    obtain ⟨a', ha', hrounds'⟩ := lnNormal_spec (hlow.trans hle) hhigh
    rw [hrounds.value_eq, hrounds'.value_eq]
    have hj : |(splitExponent b.toNat : ℚ)| ≤ 128 := by
      exact_mod_cast abs_splitExponent_le hlow (hle.trans_lt hhigh)
    have hj' : |(splitExponent b'.toNat : ℚ)| ≤ 128 := by
      exact_mod_cast abs_splitExponent_le (hlow.trans hle) hhigh
    exact nearest_mono (rounded_mono (reduced_splitFraction _) (reduced_splitFraction _) hj hj' ha
      ha' (split_lt hlt))
  · rw [UInt32.toNat_inj.mp heq]

/-- The word of a normal number. -/
theorem word_of_normal {x : Float32} (hx : Finite x) (h : 2 ^ (-126 : ℤ) ≤ value x) :
    2 ^ 23 ≤ x.toBits.toNat ∧ x.toBits.toNat < 255 * 2 ^ 23 ∧
      value x = wordValue x.toBits.toNat := by
  obtain ⟨hlt, hvalue⟩ := hx.word_of_pos ((by positivity : (0 : ℚ) < 2 ^ (-126 : ℤ)).trans_le h)
  have hleast : wordValue (2 ^ 23) = 2 ^ (-126 : ℤ) := by norm_num [wordValue]
  rw [hvalue, ← hleast, strictMono_wordValue.le_iff_le] at h
  exact ⟨h, hlt, hvalue⟩

/-- On normal numbers the logarithm is that of the word, also where it is known. -/
theorem ln_normal {x : Float32} (hx : Finite x) (h : 2 ^ (-126 : ℤ) ≤ value x) :
    Finite (ln x) ∧ value (ln x) = value (lnNormal 0 x.toBits) := by
  -- none of the special words is that of a normal number
  obtain ⟨hlow, hhigh, -⟩ := word_of_normal hx h
  have hnan : x.isNaN = false := hx.isNaN_eq_false
  have hnonzero : ¬(x.toBits <<< 1 == 0) = true := by
    intro hzero
    have hnat := congrArg UInt32.toNat (beq_iff_eq.mp hzero)
    rw [UInt32.toNat_shiftLeft, Nat.shiftLeft_eq] at hnat
    have hdouble : x.toBits.toNat * 2 % 2 ^ 32 = 0 := hnat
    omega
  have hpositive : ¬(0x80000000 : UInt32) ≤ x.toBits := by
    rw [UInt32.le_iff_toNat_le, not_le]
    exact hhigh.trans (by decide)
  have hnormal : ¬x.toBits < 0x00800000 := by
    rw [UInt32.lt_iff_toNat_lt, not_lt]
    exact hlow
  have hfinite : ¬(x.toBits == 0x7f800000) = true := by
    intro heq
    rw [beq_iff_eq.mp heq] at hhigh
    exact absurd hhigh (by decide)
  unfold ln
  dsimp only
  rw [if_neg hnonzero, hnan, if_neg Bool.false_ne_true, if_neg hpositive, if_neg hnormal,
    if_neg hfinite]
  obtain ⟨a, -, hrounds⟩ := lnNormal_spec hlow hhigh
  split
  next hone =>
    -- one is answered on its own, as the general way would answer it
    have hln : lnNormal 0 0x3f800000 = 0 := Float32.toBits_inj.mp (by decide +kernel)
    rw [beq_iff_eq.mp hone, hln]
    exact ⟨rfl, rfl⟩
  next => exact ⟨hrounds.finite, rfl⟩

/-- The logarithm of normal numbers does not fall. -/
theorem ln_mono {x y : Float32} (hx : Finite x) (hy : Finite y) (h : 2 ^ (-126 : ℤ) ≤ value x)
    (hle : value x ≤ value y) :
    Finite (ln x) ∧ Finite (ln y) ∧ value (ln x) ≤ value (ln y) := by
  obtain ⟨hlow, -, hvalue⟩ := word_of_normal hx h
  obtain ⟨-, hhigh, hvalue'⟩ := word_of_normal hy (h.trans hle)
  obtain ⟨hfinite, hln⟩ := ln_normal hx h
  obtain ⟨hfinite', hln'⟩ := ln_normal hy (h.trans hle)
  -- values in order are words in order
  rw [hvalue, hvalue', strictMono_wordValue.le_iff_le] at hle
  rw [hln, hln']
  exact ⟨hfinite, hfinite', lnNormal_mono hlow hle hhigh⟩

/-- The logarithm of one is exactly zero. -/
theorem near_ln_one : Near (ln 1) 0 0 := by
  have hln : ln 1 = 0 := rfl
  exact hln ▸ near_zero

end DynamicRange.Binary
