/-!
# Cubic Hermite interpolation

The cubic through two points with given slopes there. It joins two line segments without a corner.
The formula is stated for any scalars, so that it can be evaluated on samples and reasoned about
over an exact field.
-/

namespace DynamicRange

variable {α : Type} [Add α] [Sub α] [Mul α] [Div α] [Neg α] [OfNat α 2] [OfNat α 3]

/-- The value at `x` of the cubic through `(x₀, p₀)` with slope `m₀` and `(x₁, p₁)` with slope
`m₁`. The slopes are rescaled to the unit interval. -/
@[specialize]
def hermite (x x₀ x₁ p₀ p₁ m₀ m₁ : α) : α :=
  let width := x₁ - x₀
  let t := (x - x₀) / width
  let m₀ := m₀ * width
  let m₁ := m₁ * width
  let t₂ := t * t
  let t₃ := t₂ * t
  let c₂ := -3 * p₀ - 2 * m₀ + 3 * p₁ - m₁
  let c₃ := 2 * p₀ + m₀ - 2 * p₁ + m₁
  c₃ * t₃ + c₂ * t₂ + m₀ * t + p₀

end DynamicRange
