import DynamicRange.Envelope
import DynamicRange.Proofs.Scalar.Special
import DynamicRange.Proofs.Scalar.Word

/-!
# The level of the follower

While the inputs are numbers the level stays one, is not negative, and is still a number when it is
read in single precision. Falling, the level does not pass the input or zero, because a difference
is rounded to no more than the level itself. Rising, it can pass the input by the rounding of the
difference only, and what single precision rounds to infinity is farther from its greatest number
than that. A single input that is not a number, on the other hand, is in the level from then on.

## Key results

- `follows_coefficient`: the coefficients of the times and rates in use
- `follow_bounds`: one step of the recursion
- `Envelope.Bounded.process`: one input of the follower
- `Envelope.finite_of_reading_process`: only a finite input leaves a finite reading
-/

namespace DynamicRange

open Binary

/-! ### Bounds -/

/-- The greatest number of single precision. -/
def greatest : ℚ := (2 ^ 24 - 1) * 2 ^ 104

/-- A bound for the level: the greatest number, and room for one rounding in double precision. -/
def levelBound : ℚ := (2 ^ 52 - 2 ^ 28 + 1) * 2 ^ 76

/-- No number of single precision is beyond the greatest. -/
theorem abs_value_le_greatest {x : Float32} (hx : Finite x) : |value x| ≤ greatest := by
  have hlt := (finite_iff x).mp hx
  have hgreatest : wordValue (255 * 2 ^ 23 - 1) = greatest := by norm_num [wordValue, greatest]
  rw [hx.abs_value, ← hgreatest]
  exact strictMono_wordValue.monotone (by omega)

/-- A share of a distance, above zero and at most one. -/
structure Share (c : Float) : Prop where
  finite : Finite c
  nonneg : 0 ≤ value c
  le_one : value c ≤ 1

/-- A level that single precision can tell. -/
structure InRange (level : Float) : Prop where
  finite : Finite level
  nonneg : 0 ≤ value level
  le_bound : value level ≤ levelBound

/-- The bound for the level is a number of double precision. -/
private theorem isNumber_levelBound : IsNumber .binary64 levelBound := by
  refine ⟨2 ^ 52 - 2 ^ 28 + 1, 76, by decide, by decide, ?_⟩
  norm_num [levelBound]

/-- A result in double precision, of which the exact value is not beyond the level. -/
private theorem fits {v : ℚ} (h : |v| ≤ levelBound) :
    |nearest .binary64 v| < 2 ^ overflow .binary64 := by
  have hpow : |v| ≤ 2 ^ (128 : ℤ) := h.trans (by norm_num [levelBound])
  exact abs_nearest_lt_overflow hpow (by decide) (by decide)

/-! ### One step -/

section Step

variable {level x c : Float} {L X C : ℚ}

/-- The level falls toward an input, but not below zero. -/
private theorem fall (hl : InRange level) (hx : Finite x) (hx₀ : 0 ≤ value x) (hc : Share c)
    (hle : value x ≤ value level) : InRange (level + (x - level) * c) := by
  have hdiff_ge : -value level ≤ value x - value level := by linarith
  have hdiff_le : value x - value level ≤ 0 := sub_nonpos.mpr hle
  have hbound := hl.le_bound
  have hnonneg := hl.nonneg
  -- the difference is between the opposite of the level and zero, which are numbers
  have hdiff := sub_rounds hx hl.finite (fits (abs_le.mpr ⟨by linarith, by linarith⟩))
  obtain ⟨hge₁, hle₁⟩ := hdiff.mem hl.finite.isNumber.neg isNumber_zero hdiff_ge hdiff_le
  -- a share of it stays between itself and zero
  have hprod_ge : value (x - level) ≤ value (x - level) * value c := by
    nlinarith [hc.le_one]
  have hprod_le : value (x - level) * value c ≤ 0 := mul_nonpos_of_nonpos_of_nonneg hle₁ hc.nonneg
  have hprod := mul_rounds hdiff.finite hc.finite (fits (abs_le.mpr ⟨by linarith, by linarith⟩))
  obtain ⟨hge₂, hle₂⟩ := hprod.mem hdiff.finite.isNumber isNumber_zero hprod_ge hprod_le
  -- so the sum stays between zero and the level
  have hsum_ge : 0 ≤ value level + value ((x - level) * c) := by linarith
  have hsum_le : value level + value ((x - level) * c) ≤ value level := by linarith
  have hsum := add_rounds hl.finite hprod.finite (fits (abs_le.mpr ⟨by linarith, by linarith⟩))
  obtain ⟨hge₃, hle₃⟩ := hsum.mem isNumber_zero hl.finite.isNumber hsum_ge hsum_le
  exact ⟨hsum.finite, hge₃, hle₃.trans hbound⟩

/-- The level rises toward an input, and passes it by the rounding of their difference at most. -/
private theorem rise (hl : InRange level) (hx : Finite x) (hx₁ : value x ≤ greatest)
    (hc : Share c) (hlt : value level < value x) : InRange (level + (x - level) * c) := by
  have hnonneg := hl.nonneg
  have hgreatest : greatest + 2 ^ (76 : ℤ) = levelBound := by norm_num [greatest, levelBound]
  have hroom : (2 : ℚ) ^ (74 : ℤ) ≤ 2 ^ (76 : ℤ) := by norm_num
  have hpos : (0 : ℚ) < 2 ^ (74 : ℤ) := by positivity
  have hdiff_ge : 0 ≤ value x - value level := (sub_pos.mpr hlt).le
  have hdiff_abs : |value x - value level| ≤ levelBound := abs_le.mpr ⟨by linarith, by linarith⟩
  -- the rounding of the difference is all that the level may pass the input by
  have hdiff := sub_rounds hx hl.finite (fits hdiff_abs)
  have hdiff_nonneg : 0 ≤ value (x - level) := by
    rw [hdiff.value_eq]
    exact le_nearest isNumber_zero hdiff_ge
  have herror : |value (x - level) - (value x - value level)| ≤ 2 ^ (74 : ℤ) :=
    hdiff.abs_sub_le (k := 128) (hdiff_abs.trans (by norm_num [levelBound])) (by decide)
  have hover := (abs_le.mp herror).2
  -- a share of the difference is not more than the difference
  have hprod_ge : 0 ≤ value (x - level) * value c := mul_nonneg hdiff_nonneg hc.nonneg
  have hprod_le : value (x - level) * value c ≤ value (x - level) :=
    mul_le_of_le_one_right hdiff_nonneg hc.le_one
  have hprod := mul_rounds hdiff.finite hc.finite (fits (abs_le.mpr ⟨by linarith, by linarith⟩))
  obtain ⟨hge, hle⟩ := hprod.mem isNumber_zero hdiff.finite.isNumber hprod_ge hprod_le
  -- the bound has room for the rounding, and is a number itself
  have hsum_ge : 0 ≤ value level + value ((x - level) * c) := by linarith
  have hsum_le : value level + value ((x - level) * c) ≤ levelBound := by linarith
  have hsum := add_rounds hl.finite hprod.finite (fits (abs_le.mpr ⟨by linarith, hsum_le⟩))
  obtain ⟨hge', hle'⟩ := hsum.mem isNumber_zero isNumber_levelBound hsum_ge hsum_le
  exact ⟨hsum.finite, hge', hle'⟩

/-- Zero is in the range of a level. -/
theorem inRange_zero : InRange 0 := by
  have hzero : value (0 : Float) = 0 := rfl
  exact ⟨rfl, hzero.ge, hzero.le.trans (by norm_num [levelBound])⟩

/-- A level that is flushed to zero is in its range. -/
theorem InRange.flushTiny (h : InRange x) : InRange (flushTiny x) := by
  unfold DynamicRange.flushTiny
  split
  · exact inRange_zero
  · exact h

/-- One step of the recursion leaves the level in its range. -/
theorem follow_bounds {attack release : Float} (ha : Share attack) (hr : Share release)
    (hl : InRange level) (hx : Finite x) (hx₀ : 0 ≤ value x) (hx₁ : value x ≤ greatest) :
    InRange (follow attack release level x) := by
  -- the new level rises or falls toward the input, by the comparison of both
  apply InRange.flushTiny
  split
  next hlt => exact rise hl hx hx₁ ha ((lt_iff hl.finite hx).mp hlt)
  next hge => exact fall hl hx hx₀ hr (not_lt.mp (mt (lt_iff hl.finite hx).mpr hge))

/-- A level in its range is read as a number. -/
theorem InRange.narrow (h : InRange x) :
    Finite (Scalar.narrow x) ∧ 0 ≤ value (Scalar.narrow x) := by
  have habs : |value x| ≤ levelBound := abs_le.mpr ⟨by linarith [h.nonneg, h.le_bound], h.le_bound⟩
  have hpow : |value x| ≤ 2 ^ (128 : ℤ) := habs.trans (by norm_num [levelBound])
  -- the rounding is less than what is left up to the overflow
  have herror : |nearest .binary32 (value x) - value x| ≤ 2 ^ (103 : ℤ) :=
    abs_nearest_sub_le hpow (by decide)
  have hfits : |nearest .binary32 (value x)| < 2 ^ overflow .binary32 := by
    have hsplit : nearest .binary32 (value x) =
        value x + (nearest .binary32 (value x) - value x) := by ring
    rw [hsplit]
    have hroom : levelBound + 2 ^ (103 : ℤ) < 2 ^ (128 : ℤ) := by norm_num [levelBound]
    exact ((abs_add_le _ _).trans (add_le_add habs herror)).trans_lt hroom
  have hrounds := narrow_rounds h.finite hfits
  refine ⟨hrounds.finite, ?_⟩
  rw [hrounds.value_eq]
  exact le_nearest isNumber_zero h.nonneg

end Step

/-! ### Coefficients -/

/-- Whether a coefficient follows from a time constant, a number of samples above zero: it is the
inverse, rounded, but one for a time constant of up to one sample. -/
structure Follows (constant : ℚ) (c : Float) : Prop where
  pos : 0 < constant
  finite : Finite c
  value_eq : value c = min 1 (nearest .binary64 (1 / constant))
  lt_one_iff : value c < 1 ↔ 1 < constant

/-- A coefficient that follows from a time constant is a share. -/
theorem Follows.share {constant : ℚ} {c : Float} (h : Follows constant c) : Share c := by
  have hnonneg := le_nearest (f := .binary64) isNumber_zero (one_div_pos.mpr h.pos).le
  refine ⟨h.finite, ?_, ?_⟩
  · rw [h.value_eq]
    exact le_min zero_le_one hnonneg
  · rw [h.value_eq]
    exact min_le_left ..

/-- The rates are rounded to single precision, but not to zero. -/
theorem rate_bounds {rate : ℕ} (hpos : 0 < rate) (hlt : rate < 2 ^ 32) :
    Finite (Float32.ofNat rate) ∧ 1 ≤ value (Float32.ofNat rate) ∧
      value (Float32.ofNat rate) ≤ 2 ^ (32 : ℤ) := by
  have hrounds := ofNat_rounds (hlt.le.trans (by norm_num))
  have hge : (1 : ℚ) ≤ rate := by exact_mod_cast hpos
  have hle : (rate : ℚ) ≤ 2 ^ (32 : ℤ) := by exact_mod_cast hlt.le
  exact ⟨hrounds.finite, hrounds.mem isNumber_one (isNumber_zpow (by decide)) hge hle⟩

section Quotient

variable {x y : Float} {j k : ℤ}

/-- A quotient between powers of two in double precision. -/
private theorem div_mem_zpow (hx : Finite x) (hy : Finite y) (hne : value y ≠ 0)
    (hge : 2 ^ j ≤ value x / value y) (hle : value x / value y ≤ 2 ^ k) (hj : -1074 ≤ j)
    (hk : -1074 ≤ k ∧ k < 1024) :
    Rounds (x / y) (value x / value y) ∧ 2 ^ j ≤ value (x / y) ∧ value (x / y) ≤ 2 ^ k := by
  have hnonneg : 0 ≤ value x / value y := (zpow_pos two_pos j).le.trans hge
  have hfits := abs_nearest_lt_overflow (f := .binary64) ((abs_of_nonneg hnonneg).le.trans hle)
    hk.1 hk.2
  have hrounds := div_rounds hx hy hne hfits
  exact ⟨hrounds, hrounds.mem (isNumber_zpow hj) (isNumber_zpow hk.1) hge hle⟩

end Quotient

/-- One in double precision. -/
private theorem value_one_double : Finite (1 : Float) ∧ value (1 : Float) = 1 := by
  have hone : unpacked (1 : Float) = .finite .positive (2 ^ 52) (-52) (by decide) := rfl
  obtain ⟨hfinite, hvalue⟩ := value_of_unpacked hone
  exact ⟨hfinite, hvalue.trans (by norm_num [signed])⟩

/-- The divisor of a time constant in double precision. -/
private theorem value_4000 : Finite (4000 : Float) ∧ value (4000 : Float) = 4000 := by
  have hscale : unpacked (4000 : Float) = .finite .positive (4000 * 2 ^ 41) (-41) (by decide) := rfl
  obtain ⟨hfinite, hvalue⟩ := value_of_unpacked hscale
  exact ⟨hfinite, hvalue.trans (by norm_num [signed])⟩

/-- In double precision the inverse of a number is below one exactly when the number is above. -/
private theorem nearest_inv_lt_one_iff {v : ℚ} (hv : IsNumber .binary64 v) (hpos : 0 < v) :
    nearest .binary64 (1 / v) < 1 ↔ 1 < v := by
  constructor
  -- not above one, the inverse is not below one, and one is a number
  · intro hlt
    by_contra! hle
    have hge := le_nearest (f := .binary64) isNumber_one (one_le_one_div hpos hle)
    exact hlt.not_ge hge
  -- above one by a unit at least, the inverse is below one by half a unit at least
  · intro hlt
    have hbits : Float.Model.Format.binary64.mantissaBits = 53 := rfl
    have hgap := hv.one_add_le hlt
    rw [hbits] at hgap
    have hnumber : IsNumber .binary64 (1 - 1 / 2 ^ 53) :=
      ⟨2 ^ 53 - 1, -53, by rw [hbits]; norm_num, by decide, by norm_num⟩
    have hle : 1 / v ≤ 1 - 1 / 2 ^ 53 := by
      rw [div_le_iff₀ hpos]
      norm_num at hgap ⊢
      linarith
    exact (nearest_le hnumber hle).trans_lt (by norm_num)

/-- The time constant of a time in milliseconds at a rate, in samples, rounded once. -/
def timeConstant (timeMs rate : Float32) : ℚ := nearest .binary64 (value timeMs * value rate / 4000)

/-- A product of single-precision numbers is one of double precision. -/
theorem isNumber_mul {x y : Float32} (hx : Finite x) (hy : Finite y) :
    IsNumber .binary64 (value x * value y) := by
  have hmin : Float.Model.Format.binary32.minExponent = -149 := rfl
  have hmin' : Float.Model.Format.binary64.minExponent = -1074 := rfl
  obtain ⟨m, e, hm, he, hx⟩ := hx.isNumber
  obtain ⟨n, k, hn, hk, hy⟩ := hy.isNumber
  refine ⟨m * n, e + k, ?_, by omega, ?_⟩
  -- the product of the mantissas has at most the bits of both
  · rw [abs_mul]
    exact (mul_le_mul hm hn (abs_nonneg n) (by positivity)).trans (by decide)
  · rw [hx, hy, zpow_add₀ two_ne_zero]
    push_cast
    ring

section Coefficient

variable {time : Float32} {rate : ℕ} (ht : Finite time) (ht₁ : 2 ^ (-7 : ℤ) ≤ value time)
  (ht₂ : value time ≤ 2 ^ (14 : ℤ)) (hpos : 0 < rate) (hlt : rate < 2 ^ 32)
include ht ht₁ ht₂ hpos hlt

/-- The time constant as it is computed: the samples in the time are not rounded. -/
private theorem timeConstant_mem :
    Binary.Finite (Scalar.widen time * Scalar.widen (.ofNat rate) / 4000) ∧
      value (Scalar.widen time * Scalar.widen (.ofNat rate) / 4000) =
        timeConstant time (.ofNat rate) ∧
      2 ^ (-19 : ℤ) ≤ timeConstant time (.ofNat rate) ∧
      timeConstant time (.ofNat rate) ≤ 2 ^ (46 : ℤ) := by
  obtain ⟨hrate, hrate₁, hrate₂⟩ := rate_bounds hpos hlt
  obtain ⟨ht', hvalue⟩ := widen_exact ht
  obtain ⟨hrate', hvalue'⟩ := widen_exact hrate
  obtain ⟨hscale, hscale'⟩ := value_4000
  norm_num at ht₁ ht₂ hrate₂
  -- the number of samples in the time is far from both ends of the range
  have hge : 1 / 128 ≤ value time * value (Float32.ofNat rate) := by nlinarith
  have hle : value time * value (Float32.ofNat rate) ≤ 2 ^ (46 : ℤ) := by norm_num; nlinarith
  have habs : |value time * value (Float32.ofNat rate)| ≤ 2 ^ (46 : ℤ) :=
    abs_le.mpr ⟨by linarith, hle⟩
  have hsamples := mul_rounds ht' hrate'
    (by rw [hvalue, hvalue']; exact abs_nearest_lt_overflow habs (by decide) (by decide))
  have hsamples' : value (Scalar.widen time * Scalar.widen (.ofNat rate)) =
      value time * value (Float32.ofNat rate) := by
    rw [hsamples.value_eq, hvalue, hvalue', nearest_of_isNumber (isNumber_mul ht hrate)]
  -- divided by the scale it is still between the given powers of two
  obtain ⟨hconstant, hge', hle'⟩ := div_mem_zpow (j := -19) (k := 46) hsamples.finite
    hscale (by rw [hscale']; norm_num)
    (by rw [hsamples', hscale', le_div_iff₀ (by norm_num)]; norm_num; linarith)
    (by rw [hsamples', hscale', div_le_iff₀ (by norm_num)]; linarith) (by decide) (by decide)
  have hconstant' := hconstant.value_eq
  rw [hsamples', hscale', ← timeConstant] at hconstant'
  exact ⟨hconstant.finite, hconstant', hconstant' ▸ hge', hconstant' ▸ hle'⟩

/-- The coefficients of the times and rates in use. -/
theorem follows_coefficient :
    Follows (timeConstant time (.ofNat rate)) (Envelope.coefficient time (.ofNat rate)) := by
  obtain ⟨hconstant, hconstant', hge, hle⟩ := timeConstant_mem ht ht₁ ht₂ hpos hlt
  obtain ⟨hone, hone'⟩ := value_one_double
  norm_num at hge hle
  have hpositive : 0 < timeConstant time (.ofNat rate) := by linarith
  -- the inverse is between powers of two, so it neither overflows nor vanishes
  obtain ⟨hinverse, -⟩ := div_mem_zpow (j := -46) (k := 19) hone hconstant
    (by rw [hconstant']; exact hpositive.ne')
    (by rw [hone', hconstant', le_div_iff₀ hpositive]; norm_num; linarith)
    (by rw [hone', hconstant', div_le_iff₀ hpositive]; norm_num; linarith) (by decide) (by decide)
  have hinverse' := hinverse.value_eq
  rw [hone', hconstant'] at hinverse'
  have hiff := nearest_inv_lt_one_iff (isNumber_nearest _ _) hpositive
  unfold Envelope.coefficient smoothingCoefficient
  dsimp only
  -- the minimum is taken by a comparison with one
  split
  next hlt =>
    rw [lt_iff hinverse.finite hone, hinverse', hone'] at hlt
    exact ⟨hpositive, hinverse.finite, by rw [hinverse', min_eq_right hlt.le],
      by rw [hinverse']; exact hiff⟩
  next hge =>
    rw [lt_iff hinverse.finite hone, hinverse', hone', not_lt] at hge
    exact ⟨hpositive, hone, by rw [hone', min_eq_left hge],
      by rw [hone']; exact iff_of_false (lt_irrefl 1) (mt hiff.mpr hge.not_gt)⟩

/-- The coefficients of the times and rates in use are shares. -/
theorem share_coefficient : Share (Envelope.coefficient time (.ofNat rate)) :=
  (follows_coefficient ht ht₁ ht₂ hpos hlt).share

end Coefficient

/-- Without a rate there is no time constant, and the coefficient is one for every time. -/
theorem coefficient_zero {time : Float32} (ht : Finite time) (hpos : 0 < value time) :
    Envelope.coefficient time 0 = 1 := by
  obtain ⟨ht', hvalue⟩ := widen_exact ht
  obtain ⟨m, e, hm, htime⟩ := exists_of_pos ht' (hvalue ▸ hpos)
  -- nothing is rounded here: a product with zero, a quotient of zero and the inverse of zero
  have hsamples : unpacked (Scalar.widen time * Scalar.widen 0) = .zero .positive := by
    rw [unpacked, Packed.unpack_mul, ← unpacked, htime]
    exact Float.Model.UnpackedFloat.unpack_packedZero
  have hconstant : unpacked (Scalar.widen time * Scalar.widen 0 / 4000) = .zero .positive := by
    rw [unpacked, Packed.unpack_div, ← unpacked, hsamples]
    exact Float.Model.UnpackedFloat.unpack_packedZero
  have hinverse : unpacked (1 / (Scalar.widen time * Scalar.widen 0 / 4000)) =
      .infinity .positive := by
    rw [unpacked, Packed.unpack_div, ← unpacked, ← unpacked, hconstant]
    exact unpack_packedInfinity _
  refine if_neg ?_
  rw [Packed.lt_iff_compare, ← unpacked, ← unpacked, hinverse]
  decide

/-! ### The follower -/

/-- What is a number after flushing was one before. -/
private theorem finite_of_flushTiny {x : Float} (h : Finite (flushTiny x)) : Finite x := by
  unfold flushTiny at h
  split at h
  -- what is flushed lies between two numbers
  next hsmall =>
    have hlow : (unpacked (-1e-20 : Float)).isFinite = true := rfl
    have hhigh : (unpacked (1e-20 : Float)).isFinite = true := rfl
    exact Finite.of_lt_of_lt hlow hhigh hsmall.1 hsmall.2
  next => exact h

namespace Envelope

/-- A follower whose level single precision can tell. -/
structure Bounded (e : Envelope) : Prop where
  attack_share : Share e.attackCoefficient
  release_share : Share e.releaseCoefficient
  level_inRange : InRange e.level

/-- One input leaves the follower bounded. -/
theorem Bounded.process {e : Envelope} (h : e.Bounded) {input : Float32} (hinput : Finite input) :
    (e.process input).Bounded := by
  obtain ⟨habs, hvalue⟩ := abs_exact hinput
  obtain ⟨hwide, hvalue'⟩ := widen_exact habs
  -- the magnitude of the input is exact, also in double precision
  refine ⟨h.attack_share, h.release_share, ?_⟩
  refine follow_bounds h.attack_share h.release_share h.level_inRange hwide ?_ ?_
  · rw [hvalue', hvalue]
    exact abs_nonneg _
  · rw [hvalue', hvalue]
    exact abs_value_le_greatest hinput

/-- Only an input that is a number leaves a reading that is one. -/
theorem finite_of_reading_process {e : Envelope} {input : Float32}
    (h : Finite (e.process input).reading) : Finite input := by
  have hsum := finite_of_flushTiny h.of_narrow
  exact hsum.of_add.2.of_mul.1.of_sub.1.of_widen.of_abs

end Envelope

end DynamicRange
