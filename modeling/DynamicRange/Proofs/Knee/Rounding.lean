import DynamicRange.Proofs.Knee.Balance
import DynamicRange.Proofs.Scalar.Attenuation

/-!
# What rounding does to the curve

Inside the knee of a threshold half-way between its ends the cubic is a parabola, which starts at
the lower end with the slope of the identity and falls below it from there on. What is computed is a
cubic whose coefficients are differences of much larger numbers. Its distance from the parabola is
less than `7.5e-6`, of which more than half comes from the three largest terms of one coefficient.
So it can lie above the identity where the parabola is close below it: next to the lower end, and
anywhere when the ratio is next to one.

## Key results

- `Knee.Sound.output_near`: the curve inside the knee
-/

namespace DynamicRange

open Binary Scalar

/-! ### The slope -/

namespace Ratio

/-- The ratio of the number that a float stands for. -/
def exact : Ratio Float32 → Ratio ℚ
  | finite r => finite (Binary.value r)
  | limit => limit

variable {ratio : Ratio Float32}

/-- The slope of a ratio of at least one is between zero and one. -/
theorem Allowed.exact_slope_bounds (h : ratio.Allowed) :
    0 ≤ ratio.exact.slope ∧ ratio.exact.slope ≤ 1 := by
  cases hr : ratio with
  | finite r =>
    obtain ⟨-, hone⟩ := h r hr
    exact ⟨div_nonneg zero_le_one (zero_le_one.trans hone),
      div_le_one_of_le₀ hone (zero_le_one.trans hone)⟩
  | limit => exact ⟨le_rfl, zero_le_one⟩

/-- The slope is computed with one rounding. -/
theorem Allowed.near_slope (h : ratio.Allowed) : Near ratio.slope ratio.exact.slope 3e-8 := by
  cases hr : ratio with
  | finite r =>
    obtain ⟨hfinite, hone⟩ := h r hr
    -- the divisor is at least one, so that the quotient is at most one
    have haway : 1 + 0 ≤ |Binary.value r| := by
      rwa [add_zero, abs_of_pos (zero_lt_one.trans_le hone)]
    have hle : |1 / Binary.value r| ≤ 1 := by
      rw [abs_of_nonneg (div_nonneg zero_le_one (zero_le_one.trans hone))]
      exact div_le_one_of_le₀ hone (zero_le_one.trans hone)
    exact (near_one.div (near_value hfinite) haway zero_lt_one hle 0 (by norm_num)
      (by norm_num)).mono (by norm_num)
  | limit => exact near_zero.mono (by norm_num)

end Ratio

namespace Knee

/-! ### The cubic -/

section Cubic

variable {p₀ p₁ m₀ m₁ t : Float32} {S ω δ η ρ τ : ℚ}

/-- The coefficients of a cubic that is nearly a parabola. -/
theorem near_parabola_coefficients (hp₀ : Near p₀ S 0) (hp₁ : Near p₁ (S + (1 + δ) * ω / 2 + η) 0)
    (hm₀ : Near m₀ ω 0) (hm₁ : Near m₁ (δ * ω + ρ) 0) (hS : -7.99 ≤ S ∧ S ≤ 0)
    (hω : 0 ≤ ω ∧ S + ω ≤ 1.0601 ∧ ω ≤ 2.1201) (hδ : 0 ≤ δ ∧ δ ≤ 1) (hη : |η| ≤ 1.26e-6)
    (hρ : |ρ| ≤ 1.9e-7) :
    Near (-3 * p₀ - 2 * m₀ + 3 * p₁ - m₁) (-((1 - δ) * ω / 2) + (3 * η - ρ)) 3.3e-6 ∧
      Near (2 * p₀ + m₀ - 2 * p₁ + m₁) (ρ - 2 * η) 1.56e-6 := by
  -- the products that occur, from bounds of their factors
  have hδω : 0 ≤ δ * ω := mul_nonneg hδ.1 hω.1
  have hδω' : δ * ω ≤ ω := mul_le_of_le_one_left hω.1 hδ.2
  have hη := abs_le.mp hη
  have hρ := abs_le.mp hρ
  norm_num at hS hω hη hρ
  obtain ⟨hS₁, hS₂⟩ := hS
  obtain ⟨hω₁, hω₂, hω₃⟩ := hω
  have h₂ : |(2 : ℚ)| ≤ 2 := (abs_of_pos two_pos).le
  have h₃ : |(3 : ℚ)| ≤ 3 := by norm_num
  have h₃' : |(-3 : ℚ)| ≤ 3 := by norm_num
  -- the four values at the ends, with the sizes of their multiples
  have hP₀ : |S| ≤ 7.99 := abs_le.mpr ⟨by norm_num; linarith, by norm_num; linarith⟩
  have hP₁ : |S + (1 + δ) * ω / 2 + η| ≤ 7.995 :=
    abs_le.mpr ⟨by norm_num; linarith, by norm_num; linarith⟩
  have hM₀ : |ω| ≤ 2.1201 := abs_le.mpr ⟨by norm_num; linarith, by norm_num; linarith⟩
  -- the terms are of the size of the threshold, but what is left after each addition shrinks: the
  -- multiples of `S` cancel in both coefficients, and the last roundings are by far the finer ones
  refine ⟨?square, ?cube⟩
  case square =>
    have h3p₀ := near_neg_three.mul hp₀ h₃' hP₀ 5 (by norm_num) (by norm_num)
    have h2m₀ := near_two.mul hm₀ h₂ hM₀ 3 (by norm_num) (by norm_num)
    have h3p₁ := near_three.mul hp₁ h₃ hP₁ 5 (by norm_num) (by norm_num)
    have hB₁ : |-3 * S - 2 * ω| ≤ 23.98 := abs_le.mpr ⟨by norm_num; linarith, by norm_num; linarith⟩
    have hB₂ : |-3 * S - 2 * ω + 3 * (S + (1 + δ) * ω / 2 + η)| ≤ 2.13 :=
      abs_le.mpr ⟨by norm_num; linarith, by norm_num; linarith⟩
    have hB₃ : |-3 * S - 2 * ω + 3 * (S + (1 + δ) * ω / 2 + η) - (δ * ω + ρ)| ≤ 1.07 :=
      abs_le.mpr ⟨by norm_num; linarith, by norm_num; linarith⟩
    have h₁ := h3p₀.sub h2m₀ hB₁ 5 (by norm_num) (by norm_num)
    have h₂ := h₁.add h3p₁ hB₂ 2 (by norm_num) (by norm_num)
    have h₃ := (h₂.sub hm₁ hB₃ 1 (by norm_num) (by norm_num)).mono
      (show _ ≤ (3.3e-6 : ℚ) by norm_num)
    convert h₃ using 1
    ring
  case cube =>
    have h2p₀ := near_two.mul hp₀ h₂ hP₀ 4 (by norm_num) (by norm_num)
    have h2p₁ := near_two.mul hp₁ h₂ hP₁ 4 (by norm_num) (by norm_num)
    have hB₁ : |2 * S + ω| ≤ 15.98 := abs_le.mpr ⟨by norm_num; linarith, by norm_num; linarith⟩
    have hB₂ : |2 * S + ω - 2 * (S + (1 + δ) * ω / 2 + η)| ≤ 2.121 :=
      abs_le.mpr ⟨by norm_num; linarith, by norm_num; linarith⟩
    have hB₃ : |2 * S + ω - 2 * (S + (1 + δ) * ω / 2 + η) + (δ * ω + ρ)| ≤ 3e-6 :=
      abs_le.mpr ⟨by norm_num; linarith, by norm_num; linarith⟩
    have h₁ := h2p₀.add hm₀ hB₁ 4 (by norm_num) (by norm_num)
    have h₂ := h₁.sub h2p₁ hB₂ 2 (by norm_num) (by norm_num)
    have h₃ := (h₂.add hm₁ hB₃ (-17) (by norm_num) (by norm_num)).mono
      (show _ ≤ (1.56e-6 : ℚ) by norm_num)
    convert h₃ using 1
    ring

/-- The cubic, by its coefficients. -/
private theorem near_parabola_cubic {c₂ c₃ : Float32} {C₂ C₃ : ℚ} (hc₂ : Near c₂ C₂ 3.3e-6)
    (hc₃ : Near c₃ C₃ 1.56e-6) (hC₂ : |C₂| ≤ 1.0602) (hC₃ : |C₃| ≤ 3e-6) (hm₀ : Near m₀ ω 0)
    (hω : 0 ≤ ω ∧ ω ≤ 2.1201) (hp₀ : Near p₀ S 0) (ht : Near t τ 0) (hτ : 0 ≤ τ ∧ τ ≤ 1)
    (hS₁ : |C₃ * (τ * τ * τ) + C₂ * (τ * τ) + ω * τ| ≤ 2.13)
    (hS₀ : |C₃ * (τ * τ * τ) + C₂ * (τ * τ) + ω * τ + S| ≤ 7.995) :
    Near (c₃ * (t * t * t) + c₂ * (t * t) + m₀ * t + p₀)
      (C₃ * (τ * τ * τ) + C₂ * (τ * τ) + ω * τ + S) 5.53e-6 := by
  have hT : |τ| ≤ 1 := abs_le.mpr ⟨by linarith, hτ.2⟩
  have hM₀ : |ω| ≤ 2.1201 := abs_le.mpr ⟨by norm_num; linarith, hω.2⟩
  -- the powers of the way, each rounded once more
  have hT₂ := abs_mul_le_of_le (D := 1) hT hT (by norm_num)
  have hT₃ := abs_mul_le_of_le (D := 1) hT₂ hT (by norm_num)
  have ht₂ := (ht.mul ht hT hT 0 (by norm_num) (by norm_num)).mono
    (show _ ≤ (3e-8 : ℚ) by norm_num)
  have ht₃ := (ht₂.mul ht hT₂ hT 1 (by norm_num) (by norm_num)).mono
    (show _ ≤ (9e-8 : ℚ) by norm_num)
  -- the three terms, each the product of a coefficient and a power
  have h₃ := (hc₃.mul ht₃ hC₃ hT₃ (-17) (by norm_num) (by norm_num)).mono
    (show _ ≤ (1.57e-6 : ℚ) by norm_num)
  have h₂ := (hc₂.mul ht₂ hC₂ hT₂ 1 (by norm_num) (by norm_num)).mono
    (show _ ≤ (3.4e-6 : ℚ) by norm_num)
  have h₁ := (hm₀.mul ht hM₀ hT 2 (by norm_num) (by norm_num)).mono
    (show _ ≤ (1.2e-7 : ℚ) by norm_num)
  -- the sizes of the partial sums tell how much each addition rounds
  have hB₃ := abs_mul_le_of_le (D := 3e-6) hC₃ hT₃ (by norm_num)
  have hB₂ := abs_mul_le_of_le (D := 1.0602) hC₂ hT₂ (by norm_num)
  have hS₂ := abs_add_le_of_le (D := 1.0603) hB₃ hB₂ (by norm_num)
  have hs₂ := (h₃.add h₂ hS₂ 1 (by norm_num) (by norm_num)).mono
    (show _ ≤ (5.04e-6 : ℚ) by norm_num)
  have hs₁ := (hs₂.add h₁ hS₁ 2 (by norm_num) (by norm_num)).mono
    (show _ ≤ (5.29e-6 : ℚ) by norm_num)
  exact (hs₁.add hp₀ hS₀ 3 (by norm_num) (by norm_num)).mono (by norm_num)

/-- What the cubic is besides a parabola. -/
private theorem abs_besides_le (hτ : 0 ≤ τ ∧ τ ≤ 1) (hη : |η| ≤ 1.26e-6) (hρ : |ρ| ≤ 1.9e-7) :
    |η * (3 * (τ * τ) - 2 * (τ * τ * τ)) + ρ * (τ * τ * τ - τ * τ)| ≤ 1.45e-6 := by
  -- the square and the cube of the way are between zero and one
  have hτ₂ : 0 ≤ τ * τ ∧ τ * τ ≤ 1 := ⟨mul_nonneg hτ.1 hτ.1, mul_le_one₀ hτ.2 hτ.1 hτ.2⟩
  have hτ₃ : τ * τ * τ ≤ τ * τ := mul_le_of_le_one_right hτ₂.1 hτ.2
  have hτ₃' : 0 ≤ τ * τ * τ := mul_nonneg hτ₂.1 hτ.1
  -- the first factor is a step from zero to one
  have hstep : 3 * (τ * τ) - 2 * (τ * τ * τ) ≤ 1 := by
    have hsquare : 0 ≤ (1 - τ) * (1 - τ) * (1 + 2 * τ) :=
      mul_nonneg (mul_self_nonneg _) (by linarith)
    linarith
  have hstep' : |3 * (τ * τ) - 2 * (τ * τ * τ)| ≤ 1 := abs_le.mpr ⟨by linarith, hstep⟩
  have hbump : |τ * τ * τ - τ * τ| ≤ 1 := abs_le.mpr ⟨by linarith, by linarith⟩
  exact abs_add_le_of_le (abs_mul_le_of_le hη hstep' le_rfl) (abs_mul_le_of_le hρ hbump le_rfl)
    (by norm_num)

/-- The cubic is near a parabola. -/
private theorem near_parabola (hp₀ : Near p₀ S 0) (hp₁ : Near p₁ (S + (1 + δ) * ω / 2 + η) 0)
    (hm₀ : Near m₀ ω 0) (hm₁ : Near m₁ (δ * ω + ρ) 0) (ht : Near t τ 0) (hS : -7.99 ≤ S ∧ S ≤ 0)
    (hω : 0 ≤ ω ∧ S + ω ≤ 1.0601 ∧ ω ≤ 2.1201) (hδ : 0 ≤ δ ∧ δ ≤ 1) (hη : |η| ≤ 1.26e-6)
    (hρ : |ρ| ≤ 1.9e-7) (hτ : 0 ≤ τ ∧ τ ≤ 1) :
    Near ((2 * p₀ + m₀ - 2 * p₁ + m₁) * (t * t * t) +
      (-3 * p₀ - 2 * m₀ + 3 * p₁ - m₁) * (t * t) + m₀ * t + p₀)
      (S + (ω * τ - (1 - δ) * (ω * τ) * τ / 2)) 7e-6 := by
  -- the coefficients are those of a parabola, but for a bounded error
  obtain ⟨hc₂, hc₃⟩ := near_parabola_coefficients hp₀ hp₁ hm₀ hm₁ hS hω hδ hη hρ
  have hbesides := abs_besides_le hτ hη hρ
  have hδω : 0 ≤ δ * ω := mul_nonneg hδ.1 hω.1
  have hδω' : δ * ω ≤ ω := mul_le_of_le_one_left hω.1 hδ.2
  have hωτ : 0 ≤ ω * τ := mul_nonneg hω.1 hτ.1
  have hωτ' : ω * τ ≤ ω := mul_le_of_le_one_right hω.1 hτ.2
  -- the parabola is between a half of the way and all of it
  have hfall : 0 ≤ (1 - δ) * (ω * τ) * τ :=
    mul_nonneg (mul_nonneg (by linarith) hωτ) hτ.1
  have hfall' : (1 - δ) * (ω * τ) * τ ≤ ω * τ :=
    (mul_le_of_le_one_right (mul_nonneg (by linarith) hωτ) hτ.2).trans
      (mul_le_of_le_one_left hωτ (by linarith))
  -- the cubic is the parabola and something besides
  have hsplit : (ρ - 2 * η) * (τ * τ * τ) + (-((1 - δ) * ω / 2) + (3 * η - ρ)) * (τ * τ) + ω * τ =
      ω * τ - (1 - δ) * (ω * τ) * τ / 2 +
        (η * (3 * (τ * τ) - 2 * (τ * τ * τ)) + ρ * (τ * τ * τ - τ * τ)) := by ring
  have hbesides' := abs_le.mp hbesides
  have hη' := abs_le.mp hη
  have hρ' := abs_le.mp hρ
  norm_num at hS hω hη' hρ' hbesides'
  have hC₂ : |-((1 - δ) * ω / 2) + (3 * η - ρ)| ≤ 1.0602 :=
    abs_le.mpr ⟨by norm_num; linarith, by norm_num; linarith⟩
  have hC₃ : |ρ - 2 * η| ≤ 3e-6 := abs_le.mpr ⟨by norm_num; linarith, by norm_num; linarith⟩
  -- the rounded cubic is near it, and what is besides is small
  have hcubic := near_parabola_cubic hc₂ hc₃ hC₂ hC₃ hm₀ ⟨hω.1, by norm_num; linarith⟩ hp₀ ht hτ
    (by rw [hsplit, abs_le]; norm_num; constructor <;> linarith)
    (by rw [hsplit, abs_le]; norm_num; constructor <;> linarith)
  refine ⟨hcubic.finite, ?_⟩
  have herror := hcubic.error
  rw [hsplit] at herror
  rw [abs_le] at herror ⊢
  norm_num at herror ⊢
  constructor <;> linarith

end Cubic

/-! ### The way into the knee -/

/-- The width of the knee and the way into it. -/
theorem way_near {x start stop : Float32} (hx : Finite x) (hstart : Finite start)
    (hstop : Finite stop) (hge : value start ≤ value x) (hlt : value x < value stop)
    (hwidth : value stop - value start ≤ 2.12) :
    let τ := value ((x - start) / (stop - start))
    Near (stop - start) (value stop - value start) 1.2e-7 ∧ 0 < value (stop - start) ∧
      Finite ((x - start) / (stop - start)) ∧ (0 ≤ τ ∧ τ ≤ 1) ∧
        |value (stop - start) * τ - (value x - value start)| ≤ 1.84e-7 := by
  intro τ
  obtain ⟨hpos, hshare, hshare'⟩ :=
    way_bounds hx hstart hstop hge hlt (hwidth.trans (by norm_num))
  norm_num at hwidth
  -- the way and the width are differences of numbers below four
  have hW : |value stop - value start| ≤ 2.12 :=
    abs_le.mpr ⟨by norm_num; linarith, by norm_num; linarith⟩
  have hD : |value x - value start| ≤ 2.12 :=
    abs_le.mpr ⟨by norm_num; linarith, by norm_num; linarith⟩
  have hw := ((near_value hstop).sub (near_value hstart) hW 2 (by norm_num) (by norm_num)).mono
    (show _ ≤ (1.2e-7 : ℚ) by norm_num)
  have hn := ((near_value hx).sub (near_value hstart) hD 2 (by norm_num) (by norm_num)).mono
    (show _ ≤ (1.2e-7 : ℚ) by norm_num)
  have hω := (abs_le.mp (hw.abs_value_le hW)).2
  refine ⟨hw, hpos, hshare, hshare', ?_⟩
  -- the quotient is at most one, so it is rounded by little
  obtain ⟨-, -, hnonneg, hmono⟩ :=
    way_le hx hstart hstop hge hlt.le (by norm_num; linarith)
  have hquotient : |value (x - start) / value (stop - start)| ≤ 2 ^ (0 : ℤ) := by
    rw [abs_of_nonneg (div_nonneg hnonneg hpos.le), zpow_zero]
    exact div_le_one_of_le₀ hmono hpos.le
  obtain ⟨-, herror⟩ := div_near hn.finite hw.finite hpos.ne' hquotient (by decide)
  -- multiplied by the width, the error of the quotient is still small
  have hscaled : |value (stop - start) * τ - value (x - start)| ≤ 6.4e-8 := by
    have hfactor : value (stop - start) * τ - value (x - start) =
        value (stop - start) * (τ - value (x - start) / value (stop - start)) := by
      rw [mul_sub, mul_div_cancel₀ _ hpos.ne']
    rw [hfactor]
    exact abs_mul_le_of_le ((abs_of_pos hpos).le.trans hω) herror (by norm_num)
  have hsum := abs_add_le_of_le (D := 1.84e-7) hscaled hn.error (by norm_num)
  rwa [sub_add_sub_cancel] at hsum

/-- The parabola on the way that is computed, and on the exact one. -/
private theorem abs_parabola_sub_le {ω τ W D δ : ℚ} (hτ : 0 ≤ τ ∧ τ ≤ 1) (hδ : 0 ≤ δ ∧ δ ≤ 1)
    (hD : 0 ≤ D ∧ D ≤ W) (hW : 0 < W) (hω : |ω - W| ≤ 1.2e-7) (hway : |ω * τ - D| ≤ 1.84e-7) :
    |(1 - δ) * (ω * τ) * τ / 2 - (1 - δ) * D ^ 2 / (2 * W)| ≤ 2.45e-7 := by
  -- both shares of the width are at most one
  have hshare : |D / W| ≤ 1 := by
    rw [abs_of_nonneg (div_nonneg hD.1 hW.le)]
    exact div_le_one_of_le₀ hD.2 hW.le
  have hτ' : |τ| ≤ 1 := abs_le.mpr ⟨by linarith, hτ.2⟩
  have hδ' : |(1 - δ) / 2| ≤ 1 / 2 := abs_le.mpr ⟨by linarith [hδ.2], by linarith [hδ.1]⟩
  -- the two parabolas differ by the errors of the way, each times a share
  have hsplit : (1 - δ) * (ω * τ) * τ / 2 - (1 - δ) * D ^ 2 / (2 * W) =
      (1 - δ) / 2 * (τ * (ω * τ - D) + D / W * ((ω * τ - D) - (ω - W) * τ)) := by
    field_simp
    ring
  have hfirst := abs_mul_le_of_le hτ' hway le_rfl
  have hmoved := abs_mul_le_of_le (D := 1.2e-7) hω hτ' (by norm_num)
  have hsecond := abs_mul_le_of_le hshare
    ((abs_sub _ _).trans (add_le_add hway hmoved)) le_rfl
  rw [hsplit]
  exact abs_mul_le_of_le hδ' (abs_add_le_of_le hfirst hsecond le_rfl) (by norm_num)

end Knee

/-! ### Inside the knee -/

namespace Ratio

/-- The exact line. -/
theorem exact_line (ratio : Ratio Float32) (threshold x : ℚ) :
    ratio.exact.line threshold x = threshold + ratio.exact.slope * (x - threshold) := by
  cases ratio with
  -- the two ways to write the line agree
  | finite r =>
    show (x - threshold) / _ + threshold = threshold + 1 / _ * (x - threshold)
    ring
  | limit =>
    show threshold = threshold + 0 * (x - threshold)
    ring

/-- The line at the upper end of the knee. -/
theorem Allowed.near_line_stop {ratio : Ratio Float32} (h : ratio.Allowed) {threshold x : Float32}
    (hthreshold : Finite threshold) (hx : Finite x)
    (hle : |Binary.value threshold| ≤ 7.991)
    (hdiff : 0 ≤ Binary.value x - Binary.value threshold ∧
      Binary.value x - Binary.value threshold ≤ 1.061) (hx_le : Binary.value x ≤ 1.061) :
    Near (ratio.line threshold x)
      (ratio.exact.line (Binary.value threshold) (Binary.value x)) 3.6e-7 := by
  cases hr : ratio with
  -- the difference, the quotient and the sum, each with its size
  | finite r =>
    obtain ⟨hfinite, hone⟩ := h r hr
    have hB : |Binary.value x - Binary.value threshold| ≤ 1.061 := by
      rw [abs_of_nonneg hdiff.1]
      exact hdiff.2
    have hpos : 0 < Binary.value r := zero_lt_one.trans_le hone
    have hquotient_nonneg := div_nonneg hdiff.1 hpos.le
    have hquotient_le := div_le_self hdiff.1 hone
    have hquotient :
        |(Binary.value x - Binary.value threshold) / Binary.value r| ≤ 1.061 := by
      rw [abs_of_nonneg hquotient_nonneg]
      exact hquotient_le.trans hdiff.2
    have haway : 1 + 0 ≤ |Binary.value r| := by rwa [add_zero, abs_of_pos hpos]
    have hsum : |(Binary.value x - Binary.value threshold) / Binary.value r +
        Binary.value threshold| ≤ 7.991 := by
      have hlow := (abs_le.mp hle).1
      refine abs_le.mpr ⟨by linarith, ?_⟩
      norm_num at hx_le ⊢
      linarith
    -- one rounding after another
    have hsub := (near_value hx).sub (near_value hthreshold) hB 1 (by norm_num) (by norm_num)
    have hdiv := hsub.div (near_value hfinite) haway zero_lt_one hquotient 1 (by norm_num)
      (by norm_num)
    exact (hdiv.add (near_value hthreshold) hsum 3 (by norm_num) (by norm_num)).mono (by norm_num)
  | limit => exact (near_value hthreshold).mono (by norm_num)

end Ratio

namespace Knee

/-- How far the exact curve lies below the identity: by a parabola inside the knee, and along the
line above it. -/
def reduction (k : Knee Float32) (x : Float32) : ℚ :=
  if ¬k.isHard ∧ x < k.stop then
    (1 - k.ratio.exact.slope) * (value x - value k.start) ^ 2 /
      (2 * (value k.stop - value k.start))
  else (1 - k.ratio.exact.slope) * (value x - value k.threshold)

section Sound

variable {k : Knee Float32} (h : k.Sound) (hb : k.Balanced)
include h hb

/-- Where the line is met, against the width that is computed. -/
private theorem Sound.abs_meeting_le {ω : ℚ}
    (hω : |ω - (value k.stop - value k.start)| ≤ 1.2e-7) :
    |value k.compressedStop - (value k.start + (1 + k.ratio.exact.slope) * ω / 2)| ≤ 1.26e-6 := by
  -- the positions of the ends, as they are bounded for all knees
  have hstart := hb.le_start
  have hstop := hb.stop_le
  have hwidth := hb.width_le
  have hmiddle := abs_le.mp hb.middle
  have hstart_le := h.start_le
  have hnonpos := h.threshold_nonpos
  have hstop_ge := h.threshold_le
  norm_num at hstart hstop hwidth hmiddle
  obtain ⟨hδ, hδ'⟩ := h.ratio_allowed.exact_slope_bounds
  -- the end of the line is above the threshold by no more than half of the width
  have hline := h.ratio_allowed.near_line_stop h.threshold_finite h.stop_finite
    (abs_le.mpr ⟨by norm_num; linarith, by norm_num; linarith⟩)
    ⟨by linarith, by norm_num; linarith⟩ (by norm_num; linarith)
  rw [← h.compressedStop_eq, Ratio.exact_line] at hline
  generalize k.ratio.exact.slope = δ at hδ hδ' hline ⊢
  -- the middle and the width are off by so much, and the line by its own rounding
  have hsplit : value k.compressedStop - (value k.start + (1 + δ) * ω / 2) =
      value k.compressedStop -
          (value k.threshold + δ * (value k.stop - value k.threshold)) +
        ((1 - δ) * (value k.threshold - (value k.start + value k.stop) / 2) +
          -((1 + δ) / 2 * (ω - (value k.stop - value k.start)))) := by ring
  have hfirst : |(1 - δ) * (value k.threshold - (value k.start + value k.stop) / 2)| ≤ 7.8e-7 :=
    abs_mul_le_of_le (abs_le.mpr ⟨by linarith, by linarith⟩ : |1 - δ| ≤ 1) hb.middle (by norm_num)
  have hsecond : |-((1 + δ) / 2 * (ω - (value k.stop - value k.start)))| ≤ 1.2e-7 := by
    rw [abs_neg]
    exact abs_mul_le_of_le (abs_le.mpr ⟨by linarith, by linarith⟩ : |(1 + δ) / 2| ≤ 1) hω
      (by norm_num)
  rw [hsplit]
  exact abs_add_le_of_le hline.error (abs_add_le_of_le hfirst hsecond le_rfl) (by norm_num)

/-- The two ends of the cubic and its slopes there, for the width that is computed. -/
theorem Sound.near_ends {w : Float32} (hw : Near w (value k.stop - value k.start) 1.2e-7) :
    ∃ η ρ, |η| ≤ 1.26e-6 ∧ |ρ| ≤ 1.9e-7 ∧
      Near k.compressedStop (value k.start + (1 + k.ratio.exact.slope) * value w / 2 + η) 0 ∧
      Near (1 * w) (value w) 0 ∧
      Near (k.ratio.slope * w) (k.ratio.exact.slope * value w + ρ) 0 := by
  obtain ⟨hδ, hδ'⟩ := h.ratio_allowed.exact_slope_bounds
  have hwidth : |value k.stop - value k.start| ≤ 2.12 := by
    rw [abs_of_nonneg (by linarith [h.start_le, h.threshold_le])]
    exact hb.width_le
  have hω := hw.abs_value_le hwidth
  obtain ⟨hm₀, hm₀'⟩ := one_mul_exact hw.finite
  -- the two slopes, of which that of one is multiplied exactly
  have hm₁ := h.ratio_allowed.near_slope.mul (near_value hw.finite)
    (abs_le.mpr ⟨by linarith, hδ'⟩) hω 2 (by norm_num) (by norm_num)
  refine ⟨_, value (k.ratio.slope * w) - k.ratio.exact.slope * value w,
    h.abs_meeting_le hb hw.error, hm₁.error.trans (by norm_num), ?_, hm₀' ▸ near_value hm₀, ?_⟩
  · rw [add_sub_cancel]
    exact near_value h.compressedStop_bounds.1
  · rw [add_sub_cancel]
    exact near_value hm₁.finite

/-- Where the knee is. -/
theorem Sound.ends_mem {w : Float32} (hw : Near w (value k.stop - value k.start) 1.2e-7)
    (hpos : 0 < value w) :
    (-7.99 ≤ value k.start ∧ value k.start ≤ 0) ∧
      0 ≤ value w ∧ value k.start + value w ≤ 1.0601 ∧ value w ≤ 2.1201 := by
  -- the computed width is near the exact one, which the ends bound
  have hstop := hb.stop_le
  have hwidth := hb.width_le
  have herror := abs_le.mp hw.error
  norm_num at hstop hwidth herror ⊢
  refine ⟨⟨?_, h.start_le.trans h.threshold_nonpos⟩, hpos.le, by linarith, by linarith⟩
  have hstart := hb.le_start
  norm_num at hstart
  linarith

/-- Inside the knee the curve is the exact one, but for rounding. -/
theorem Sound.output_near {x : Float32} (hx : Finite x) (hge : value k.start ≤ value x)
    (hinside : ¬k.isHard ∧ x < k.stop) :
    Near (k.output x) (value x - k.reduction x) 7.5e-6 := by
  have hlt := (lt_iff hx h.stop_finite).mp hinside.2
  -- the way that is computed, and how much it moves the parabola
  obtain ⟨hw, hwpos, ht, hτ, hway⟩ :=
    way_near hx h.start_finite h.stop_finite hge hlt hb.width_le
  have hslope := h.ratio_allowed.exact_slope_bounds
  have hparabola := abs_parabola_sub_le hτ hslope
    (D := value x - value k.start) (W := value k.stop - value k.start)
    ⟨by linarith, by linarith⟩ (by linarith) hw.error hway
  -- the ends of the cubic and its slopes for the width that is computed
  obtain ⟨η, ρ, hη, hρ, hp₁, hm₀, hm₁⟩ := h.near_ends hb hw
  obtain ⟨hS, hω⟩ := h.ends_mem hb hw hwpos
  rw [reduction, if_pos hinside, output, if_pos hinside]
  unfold hermite
  dsimp only
  generalize (x - k.start) / (k.stop - k.start) = t at ht hτ hway hparabola ⊢
  generalize k.stop - k.start = w at hw hwpos hway hparabola hp₁ hm₀ hm₁ hω ⊢
  have hnear := near_parabola (near_value h.start_finite) hp₁ hm₀ hm₁ (near_value ht) hS hω hslope
    hη hρ hτ
  refine ⟨hnear.finite, ?_⟩
  -- the error of the cubic, that of the way and that of the parabola add up
  have herror := abs_le.mp hnear.error
  have hway := abs_le.mp hway
  have hparabola := abs_le.mp hparabola
  rw [abs_le]
  norm_num at herror hway hparabola ⊢
  constructor <;> linarith

end Sound

end Knee

end DynamicRange
