import Mathlib
import DynamicRange.Hermite

/-!
# What the cubic interpolation reproduces

A cubic is known by its values and slopes at two points, and the interpolation gives back just that
cubic: fed with the values and slopes of a polynomial of degree at most three, it is the polynomial.
For any values and slopes there is such a cubic, so the interpolation passes through both points
with the slopes asked for.

## Key results

- `hermite_of_natDegree_le`: polynomials of degree at most three are reproduced
- `exists_cubic`: the cubic of any values and slopes
- `hermite_reproduces`: both together, with the slopes as derivatives
-/

namespace DynamicRange

open Polynomial

section Field

variable {α : Type} [Field α] {x₀ x₁ : α}

/-- A polynomial of degree at most three, and its derivative, by their coefficients. -/
private theorem exists_coefficients {q : α[X]} (hq : q.natDegree ≤ 3) :
    ∃ a b c d : α, (∀ x, q.eval x = a + b * x + c * x ^ 2 + d * x ^ 3) ∧
      ∀ x, q.derivative.eval x = b + 2 * c * x + 3 * d * x ^ 2 := by
  -- a polynomial is the sum of its terms, of which there are four
  have hsum : q = C (q.coeff 0) + C (q.coeff 1) * X + C (q.coeff 2) * X ^ 2 +
      C (q.coeff 3) * X ^ 3 := by
    conv_lhs => rw [q.as_sum_range_C_mul_X_pow' (Nat.lt_succ_of_le hq)]
    simp [Finset.sum_range_succ]
  generalize q.coeff 0 = a, q.coeff 1 = b, q.coeff 2 = c, q.coeff 3 = d at hsum
  subst hsum
  refine ⟨a, b, c, d, fun x => by simp, fun x => ?_⟩
  simp only [derivative_C, derivative_mul, zero_mul, derivative_X, mul_one, zero_add,
    derivative_X_pow_succ, Nat.cast_one, map_add, map_one, pow_one, Nat.cast_ofNat, eval_add,
    eval_C, eval_mul, eval_one, eval_X, eval_pow]
  ring

/-- The interpolation of the values and slopes of a polynomial of degree at most three is that
polynomial, between the points and beyond. -/
theorem hermite_of_natDegree_le (hne : x₀ ≠ x₁) {q : α[X]} (hq : q.natDegree ≤ 3) (x : α) :
    hermite x x₀ x₁ (q.eval x₀) (q.eval x₁) (q.derivative.eval x₀) (q.derivative.eval x₁) =
      q.eval x := by
  have hwidth : x₁ - x₀ ≠ 0 := sub_ne_zero.mpr hne.symm
  obtain ⟨a, b, c, d, heval, hderivative⟩ := exists_coefficients hq
  simp only [heval, hderivative, hermite]
  -- free of the width, both sides are polynomials in the coefficients
  field_simp
  ring

/-- Any values and slopes at two points are those of a cubic. -/
theorem exists_cubic (hne : x₀ ≠ x₁) (p₀ p₁ m₀ m₁ : α) :
    ∃ q : α[X], q.natDegree ≤ 3 ∧ q.eval x₀ = p₀ ∧ q.eval x₁ = p₁ ∧
      q.derivative.eval x₀ = m₀ ∧ q.derivative.eval x₁ = m₁ := by
  have hwidth : x₁ - x₀ ≠ 0 := sub_ne_zero.mpr hne.symm
  -- each term is zero at the points that the terms before it have settled
  let a := (p₁ - p₀ - m₀ * (x₁ - x₀)) / (x₁ - x₀) ^ 2
  let b := (m₁ - m₀ - 2 * a * (x₁ - x₀)) / (x₁ - x₀) ^ 2
  refine ⟨C p₀ + C m₀ * (X - C x₀) + C a * (X - C x₀) ^ 2 + C b * (X - C x₀) ^ 2 * (X - C x₁),
    by compute_degree, ?_, ?_, ?_, ?_⟩
  -- the values at both points, then the slopes, each a polynomial identity once the width is
  -- divided out
  · simp
  · simp only [eval_add, eval_C, eval_mul, eval_sub, eval_X, eval_pow, sub_self, mul_zero,
      add_zero, a]
    field_simp
    ring
  · simp [derivative_X_sub_C_sq]
  · simp only [derivative_add, derivative_C, derivative_mul, zero_mul, derivative_sub, derivative_X,
      sub_zero, mul_one, zero_add, derivative_X_sub_C_sq, eval_add, eval_C, eval_mul, eval_sub,
      eval_X, sub_self, mul_zero, eval_pow, a, b]
    field_simp
    ring

end Field

/-- The interpolation reproduces every polynomial of degree at most three. So for any values and
slopes it is a cubic, which has these values at the two points, and these slopes. -/
theorem hermite_reproduces {α : Type} [NontriviallyNormedField α] {x₀ x₁ : α} (hne : x₀ ≠ x₁) :
    (∀ q : α[X], q.natDegree ≤ 3 → ∀ x,
        hermite x x₀ x₁ (q.eval x₀) (q.eval x₁) (q.derivative.eval x₀) (q.derivative.eval x₁) =
          q.eval x) ∧
      ∀ p₀ p₁ m₀ m₁ : α, let f := fun x => hermite x x₀ x₁ p₀ p₁ m₀ m₁
        (∃ q : α[X], q.natDegree ≤ 3 ∧ ∀ x, f x = q.eval x) ∧
        f x₀ = p₀ ∧ f x₁ = p₁ ∧ HasDerivAt f m₀ x₀ ∧ HasDerivAt f m₁ x₁ := by
  refine ⟨fun q hq => hermite_of_natDegree_le hne hq, fun p₀ p₁ m₀ m₁ => ?_⟩
  intro f
  obtain ⟨q, hq, rfl, rfl, rfl, rfl⟩ := exists_cubic hne p₀ p₁ m₀ m₁
  have hf : f = fun x => q.eval x := funext (hermite_of_natDegree_le hne hq)
  rw [hf]
  exact ⟨⟨q, hq, fun _ => rfl⟩, rfl, rfl, q.hasDerivAt x₀, q.hasDerivAt x₁⟩

/-- The third power over the rationals, from its values and slopes at `-2` and `1`; and a cubic that
leaves `-2` with slope `1` and arrives at `0` with slope `1 / 4`. -/
theorem hermite_reproduces_rat :
    (∀ x : ℚ, hermite x (-2) 1 (-8) 1 12 3 = x ^ 3) ∧
      HasDerivAt (fun x : ℚ => hermite x (-2) 0 (-2) (-1) 1 (1 / 4)) 1 (-2) ∧
      HasDerivAt (fun x : ℚ => hermite x (-2) 0 (-2) (-1) 1 (1 / 4)) (1 / 4) 0 := by
  have hone : (-2 : ℚ) ≠ 1 := by norm_num
  have hzero : (-2 : ℚ) ≠ 0 := by norm_num
  -- the first from a given polynomial, the second from values and slopes
  refine ⟨fun x => ?_, ?_⟩
  · have hcube := (hermite_reproduces hone).1 (X ^ 3) (natDegree_X_pow_le 3) x
    norm_num [derivative_X_pow] at hcube
    exact hcube
  · exact ((hermite_reproduces hzero).2 _ _ _ _).2.2.2

end DynamicRange
