import DynamicRange.Proofs.Scalar.Packed

/-!
# Values of floats

A finite float stands for a rational number, its value. Each operation on finite floats gives the
number nearest to the exact result on the values, unless that is too large for the format. All that
is said of the arithmetic of single and double precision comes from this.

## Key results

- `add_rounds`, `sub_rounds`, `mul_rounds`, `div_rounds`: the operations on values
- `lt_iff`, `le_iff`: comparison is that of the values
- `Rounds.abs_sub_le`, `Rounds.mem`: how far a result is off, and where it lies
- `sqrt_mem_of_unpacked`: where a square root lies
-/

namespace DynamicRange.Binary

open Float.Model (UnpackedFloat)
open Float.Model.UnpackedFloat

/-- Floats that are kept in the bits of a format and taken apart for each operation. -/
class Packed (α : Type) (f : outParam Float.Model.Format) [Add α] [Sub α] [Mul α] [Div α] [Neg α]
    [LT α] [LE α] where
  two_le_exponentBits : 2 ≤ f.exponentBits
  bits : α → BitVec f.numBits
  unpack_add (x y : α) : unpack f (bits (x + y)) =
    unpack f (pack f (add f (unpack f (bits x)) (unpack f (bits y))))
  unpack_sub (x y : α) : unpack f (bits (x - y)) =
    unpack f (pack f (sub f (unpack f (bits x)) (unpack f (bits y))))
  unpack_mul (x y : α) : unpack f (bits (x * y)) =
    unpack f (pack f (mul f (unpack f (bits x)) (unpack f (bits y))))
  unpack_div (x y : α) : unpack f (bits (x / y)) =
    unpack f (pack f (div f (unpack f (bits x)) (unpack f (bits y))))
  unpack_neg (x : α) : unpack f (bits (-x)) = unpack f (pack f (unpack f (bits x)).neg)
  lt_iff_compare (x y : α) :
    x < y ↔ (unpack f (bits x)).compare (unpack f (bits y)) = some .lt
  le_iff_compare (x y : α) :
    x ≤ y ↔ ((unpack f (bits x)).compare (unpack f (bits y))).any (·.isLE) = true

instance : Packed Float32 .binary32 where
  two_le_exponentBits := by decide
  bits x := x.toModel.toBits.toBitVec
  unpack_add _ _ := rfl
  unpack_sub _ _ := rfl
  unpack_mul _ _ := rfl
  unpack_div _ _ := rfl
  unpack_neg _ := rfl
  lt_iff_compare _ _ := decide_eq_true_iff.trans beq_iff_eq
  le_iff_compare _ _ := decide_eq_true_iff

instance : Packed Float .binary64 where
  two_le_exponentBits := by decide
  bits x := x.toModel.toBits.toBitVec
  unpack_add _ _ := rfl
  unpack_sub _ _ := rfl
  unpack_mul _ _ := rfl
  unpack_div _ _ := rfl
  unpack_neg _ := rfl
  lt_iff_compare _ _ := decide_eq_true_iff.trans beq_iff_eq
  le_iff_compare _ _ := decide_eq_true_iff

variable {α : Type} {f : Float.Model.Format} [Add α] [Sub α] [Mul α] [Div α] [Neg α] [LT α] [LE α]
  [Packed α f] {x y z : α} {v w : ℚ} {k : ℤ}

/-- A float taken apart. -/
def unpacked (x : α) : UnpackedFloat := unpack f (Packed.bits x)

/-- Whether a float stands for a number. -/
def Finite (x : α) : Prop := (unpacked x).isFinite = true

/-- The number that a float stands for. -/
def value (x : α) : ℚ := toRat (unpacked x)

/-- A float that is given by its parts. -/
theorem value_of_unpacked {s : Sign} {m : ℕ} {e : ℤ} {hm : 0 < m}
    (h : unpacked x = .finite s m e hm) : Finite x ∧ value x = signed s (m * 2 ^ e) := by
  rw [Finite, value, h]
  exact ⟨rfl, rfl⟩

/-- The parts of a finite float are in the form that its format keeps. -/
theorem Finite.isCanonical (h : Finite x) : IsCanonical f (unpacked x) :=
  (isCanonical_unpack (Packed.two_le_exponentBits α) h).1

/-- A finite float is below the power of two at which its format overflows. -/
theorem Finite.abs_value_lt (h : Finite x) : |value x| < 2 ^ overflow f :=
  (isCanonical_unpack (Packed.two_le_exponentBits α) h).2

/-- The value of a finite float is one of the numbers of its format. -/
theorem Finite.isNumber (h : Finite x) : IsNumber f (value x) := h.isCanonical.isNumber

/-! ### Rounded results -/

/-- A finite float whose value is the nearest number to `v`. -/
structure Rounds (z : α) (v : ℚ) : Prop where
  finite : Finite z
  value_eq : value z = nearest f v

/-- A result that is small enough is kept as it is. -/
theorem rounds_of_unpacked {u : UnpackedFloat} (hz : unpacked z = unpack f (pack f u))
    (hcanonical : IsCanonical f u) (hu : toRat u = nearest f v)
    (hlt : |nearest f v| < 2 ^ overflow f) : Rounds z v := by
  -- the rounded result is in range, so packing it loses nothing
  have hunpack := hz.trans (unpack_pack (Packed.two_le_exponentBits α) hcanonical (hu ▸ hlt))
  constructor
  · rw [Finite, hunpack]
    exact hcanonical.isFinite
  · rw [value, hunpack, hu]

/-- A positive value, of which the leading bits are known, is rounded. -/
theorem rounds_of_roundWithAccuracy {m : ℕ} {e : ℤ} {accuracy : Accuracy}
    (hz : unpacked z = unpack f (pack f (roundWithAccuracy f .positive m e accuracy)))
    (hv : 0 < v) (h : Single.Represents (.ofMantissaAndAccuracy m accuracy) (v / 2 ^ e))
    (hle : e ≤ unitExponent f v) (hlt : |nearest f v| < 2 ^ overflow f) : Rounds z v := by
  obtain ⟨hcanonical, hround⟩ := roundWithAccuracy_spec (f := f) .positive hv h hle
  exact rounds_of_unpacked hz hcanonical hround hlt

/-- A sum that does not overflow is the number nearest to the exact sum. -/
theorem add_rounds (hx : Finite x) (hy : Finite y)
    (hlt : |nearest f (value x + value y)| < 2 ^ overflow f) :
    Rounds (x + y) (value x + value y) := by
  obtain ⟨hcanonical, hvalue⟩ := add_spec hx.isCanonical hy.isCanonical
  exact rounds_of_unpacked (Packed.unpack_add x y) hcanonical hvalue hlt

/-- A difference that does not overflow is the number nearest to the exact difference. -/
theorem sub_rounds (hx : Finite x) (hy : Finite y)
    (hlt : |nearest f (value x - value y)| < 2 ^ overflow f) :
    Rounds (x - y) (value x - value y) := by
  obtain ⟨hcanonical, hvalue⟩ := sub_spec hx.isCanonical hy.isCanonical
  exact rounds_of_unpacked (Packed.unpack_sub x y) hcanonical hvalue hlt

/-- A product that does not overflow is the number nearest to the exact product. -/
theorem mul_rounds (hx : Finite x) (hy : Finite y)
    (hlt : |nearest f (value x * value y)| < 2 ^ overflow f) :
    Rounds (x * y) (value x * value y) := by
  obtain ⟨hcanonical, hvalue⟩ := mul_spec hx.isCanonical hy.isCanonical
  exact rounds_of_unpacked (Packed.unpack_mul x y) hcanonical hvalue hlt

/-- A quotient that does not overflow is the number nearest to the exact quotient. -/
theorem div_rounds (hx : Finite x) (hy : Finite y) (hne : value y ≠ 0)
    (hlt : |nearest f (value x / value y)| < 2 ^ overflow f) :
    Rounds (x / y) (value x / value y) := by
  obtain ⟨hcanonical, hvalue⟩ := div_spec hx.isCanonical hy.isCanonical hne
  exact rounds_of_unpacked (Packed.unpack_div x y) hcanonical hvalue hlt

/-- The opposite of a float has the parts of the float, with the other sign. -/
theorem unpacked_neg (x : α) : unpacked (-x) = (unpacked x).neg := by
  have hneg : unpacked (-x) = unpack f (pack f (unpacked x).neg) := Packed.unpack_neg x
  rw [hneg, unpack_pack_neg, unpacked, unpack_pack_unpack (Packed.two_le_exponentBits α)]

/-- The opposite of a number is exact. -/
theorem neg_exact (hx : Finite x) : Finite (-x) ∧ value (-x) = -value x := by
  rw [Finite, value, unpacked_neg]
  exact ⟨hx.isCanonical.neg.isFinite, toRat_neg _⟩

/-- A product with one changes nothing. -/
theorem mul_one_exact (hx : Finite x) {one : α} (hone : Finite one) (h : value one = 1) :
    Finite (x * one) ∧ value (x * one) = value x := by
  -- the product is the value itself, a number of the format already
  have hprod : value x * value one = value x := by rw [h, mul_one]
  have hnear : nearest f (value x) = value x := nearest_of_isNumber hx.isNumber
  have hrounds := mul_rounds hx hone (by rw [hprod, hnear]; exact hx.abs_value_lt)
  exact ⟨hrounds.finite, by rw [hrounds.value_eq, hprod, hnear]⟩

/-- A natural number is rounded, and may then be multiplied by a power of ten that is one. -/
theorem rounds_of_normalize_mul {n : ℕ} {one : α}
    (hz : unpacked z = unpack f (pack f (normalize f n 0 .positive)))
    (hlt : |nearest f n| < 2 ^ overflow f) (hone : Finite one) (h : value one = 1) :
    Rounds (z * one) n := by
  obtain ⟨hcanonical, hvalue⟩ := normalize_spec (f := f) n 0 .positive
  rw [zpow_zero, mul_one, Int.cast_natCast] at hvalue
  have hrounds : Rounds z n := rounds_of_unpacked hz hcanonical hvalue hlt
  obtain ⟨hfinite, hproduct⟩ := mul_one_exact hrounds.finite hone h
  exact ⟨hfinite, hproduct.trans hrounds.value_eq⟩

/-! ### Comparison -/

/-- One finite float is below another exactly if its value is. -/
theorem lt_iff (hx : Finite x) (hy : Finite y) : x < y ↔ value x < value y := by
  rw [Packed.lt_iff_compare, ← unpacked, ← unpacked, compare_eq hx.isCanonical hy.isCanonical,
    Option.some_inj, cmp_eq_lt_iff]
  rfl

/-- One finite float is at most another exactly if its value is. -/
theorem le_iff (hx : Finite x) (hy : Finite y) : x ≤ y ↔ value x ≤ value y := by
  rw [Packed.le_iff_compare, ← unpacked, ← unpacked, compare_eq hx.isCanonical hy.isCanonical,
    Option.any_some]
  show (cmp (value x) (value y)).isLE = true ↔ _
  rw [Ordering.isLE_iff_ne_gt, cmp_eq_gt_iff, not_lt]

/-! ### Errors and bounds -/

/-- Rounding does not take a value beyond a power of two. -/
theorem abs_nearest_lt_overflow (h : |v| ≤ 2 ^ k) (hmin : f.minExponent ≤ k)
    (hmax : k < overflow f) : |nearest f v| < 2 ^ overflow f :=
  (abs_nearest_le (isNumber_zpow hmin) h).trans_lt (zpow_lt_zpow_right₀ one_lt_two hmax)

/-- A result is off by at most half of a unit of its binade. -/
theorem Rounds.abs_sub_le (h : Rounds z v) (hk : |v| ≤ 2 ^ k)
    (hmin : f.minExponent ≤ k - f.mantissaBits) :
    |value z - v| ≤ 2 ^ (k - f.mantissaBits - 1) := by
  rw [h.value_eq]
  exact abs_nearest_sub_le hk hmin

/-- A result lies between two numbers of the format when the exact one does. -/
theorem Rounds.mem (h : Rounds z v) {a b : ℚ} (ha : IsNumber f a) (hb : IsNumber f b)
    (hle : a ≤ v) (hge : v ≤ b) : a ≤ value z ∧ value z ≤ b := by
  rw [h.value_eq]
  exact ⟨le_nearest ha hle, nearest_le hb hge⟩

/-- A root lies between two numbers when their squares have its argument between them. -/
theorem sqrt_mem_of_unpacked {a b : ℚ} (hz : unpacked z = unpack f (pack f (sqrt f (unpacked x))))
    (hx : Finite x) (hpos : 0 < value x) (ha : IsNumber f a) (hb : IsNumber f b) (hb' : 0 ≤ b)
    (hlow : a ^ 2 ≤ value x) (hhigh : value x ≤ b ^ 2) (ha' : -2 ^ overflow f < a)
    (hb'' : b < 2 ^ overflow f) : Finite z ∧ a ≤ value z ∧ value z ≤ b := by
  obtain ⟨hcanonical, w, hlo, hhi, hw⟩ := sqrt_spec hx.isCanonical hb' hlow hhigh hpos
  -- rounding does not cross `a` or `b`, which are numbers of the format
  have hge := le_nearest ha hlo
  have hle := nearest_le hb hhi
  have hrounds : Rounds z w := rounds_of_unpacked hz hcanonical hw
    (abs_lt.mpr ⟨ha'.trans_le hge, hle.trans_lt hb''⟩)
  exact ⟨hrounds.finite, hrounds.mem ha hb hlo hhi⟩

end DynamicRange.Binary
