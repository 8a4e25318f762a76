import DynamicRange.Proofs.Scalar.Single

/-!
# Errors of a computation

A computation in single precision is followed beside the exact one: each number computed is finite
and within a bound of the exact number, and each operation adds the bounds of its operands and its
own rounding. The bounds are rational numbers, so a chain of operations is closed by arithmetic.

## Key results

- `Near.add`, `Near.sub`, `Near.mul`, `Near.div`: one step of a computation
-/

namespace DynamicRange.Binary

open Float.Model.UnpackedFloat (Sign)

variable {x y : Float32} {v w ε δ B C Q : ℚ} {k : ℤ}

/-- A product of bounded numbers is bounded by the product of the bounds. -/
theorem abs_mul_le_of_le {D : ℚ} (hv : |v| ≤ B) (hw : |w| ≤ C) (h : B * C ≤ D) :
    |v * w| ≤ D := by
  have hB : 0 ≤ B := (abs_nonneg v).trans hv
  rw [abs_mul]
  exact (mul_le_mul hv hw (abs_nonneg w) hB).trans h

/-- A sum of bounded numbers is bounded by the sum of the bounds. -/
theorem abs_add_le_of_le {D : ℚ} (hv : |v| ≤ B) (hw : |w| ≤ C) (h : B + C ≤ D) :
    |v + w| ≤ D :=
  (abs_add_le v w).trans ((add_le_add hv hw).trans h)

/-- A number within `ε` of `v`. -/
structure Near (x : Float32) (v ε : ℚ) : Prop where
  finite : Finite x
  error : |value x - v| ≤ ε

/-- A number is at its own value, with no error. -/
theorem near_value (hx : Finite x) : Near x (value x) 0 :=
  ⟨hx, by rw [sub_self, abs_zero]⟩

/-- A number that is given by its parts. -/
theorem near_of_unpacked {s : Sign} {m : ℕ} {e : ℤ} {hm : 0 < m}
    (h : unpacked x = .finite s m e hm) (hv : signed s (m * 2 ^ e) = v) : Near x v 0 := by
  obtain ⟨hfinite, hvalue⟩ := value_of_unpacked h
  rw [← hv, ← hvalue]
  exact near_value hfinite

/-- A number that is given by its word. -/
theorem near_of_toBits {b : UInt32} {s : Sign} {m : ℕ} {e : ℤ} {hm : 0 < m} (hx : x.toBits = b)
    (h : unpacked (Float32.ofBits b) = .finite s m e hm) (hv : signed s (m * 2 ^ e) = v) :
    Near x v 0 := by
  rw [← Float32.ofBits_toBits x, hx]
  exact near_of_unpacked h hv

/-- Zero is exact. -/
theorem near_zero : Near 0 0 0 := ⟨rfl, by rw [sub_zero]; exact (abs_zero (α := ℚ)).le⟩

/-- One is exact. -/
theorem near_one : Near 1 1 0 := by
  have h : unpacked (1 : Float32) = .finite .positive (2 ^ 23) (-23) (by decide) := rfl
  exact near_of_unpacked h (by norm_num [signed])

/-- Two is exact. -/
theorem near_two : Near 2 2 0 := by
  have h : unpacked (2 : Float32) = .finite .positive (2 ^ 23) (-22) (by decide) := rfl
  exact near_of_unpacked h (by norm_num [signed])

/-- A half is exact. -/
theorem near_half : Near 0.5 (1 / 2) 0 := by
  have h : unpacked (0.5 : Float32) = .finite .positive (2 ^ 23) (-24) (by decide) := rfl
  exact near_of_unpacked h (by norm_num [signed])

namespace Near

/-- A larger bound is a bound too. -/
theorem mono (h : Near x v ε) (hle : ε ≤ δ) : Near x v δ := ⟨h.finite, h.error.trans hle⟩

/-- Where there is no error, the value is the exact number. -/
theorem value_eq (h : Near x v 0) : value x = v :=
  sub_eq_zero.mp (abs_nonpos_iff.mp h.error)

/-- A bound of an error is not negative. -/
theorem nonneg (h : Near x v ε) : 0 ≤ ε := (abs_nonneg _).trans h.error

/-- How large a number is that is within `ε` of a bounded one. -/
theorem abs_value_le (h : Near x v ε) (hv : |v| ≤ B) : |value x| ≤ B + ε := by
  have hsum : value x = v + (value x - v) := by ring
  rw [hsum]
  exact (abs_add_le _ _).trans (add_le_add hv h.error)

/-- One more rounding of a result that is off by `ε`. -/
private theorem of_rounded {z : Float32} {u : ℚ} (h : Finite z ∧ |value z - u| ≤ 2 ^ (k - 25))
    (hu : |u - v| ≤ ε) : Near z v (ε + 2 ^ (k - 25)) := by
  refine ⟨h.1, ?_⟩
  -- what the rounding adds comes on top of the error there was
  calc |value z - v| ≤ |value z - u| + |u - v| := abs_sub_le ..
    _ ≤ ε + 2 ^ (k - 25) := by linarith [h.2]

/-- How large a number is that is within `ε` of a bounded one, for exact numbers. -/
private theorem abs_le_of_sub {u : ℚ} (hu : |u - v| ≤ ε) (hv : |v| ≤ B) : |u| ≤ B + ε := by
  have hsum : u = v + (u - v) := by ring
  rw [hsum]
  exact (abs_add_le _ _).trans (add_le_add hv hu)

section

variable (hx : Near x v ε) (hy : Near y w δ)
include hx hy

/-- A sum: the errors of the operands add up, and the rounding comes on top. -/
theorem add (hv : |v + w| ≤ B) (k : ℤ) (h : B + (ε + δ) ≤ 2 ^ k) (hk : -125 ≤ k ∧ k ≤ 127) :
    Near (x + y) (v + w) (ε + δ + 2 ^ (k - 25)) := by
  have herror : |value x + value y - (v + w)| ≤ ε + δ := by
    rw [add_sub_add_comm]
    exact (abs_add_le _ _).trans (add_le_add hx.error hy.error)
  exact of_rounded (add_near hx.finite hy.finite ((abs_le_of_sub herror hv).trans h) hk) herror

/-- A difference: the errors of the operands add up, and the rounding comes on top. -/
theorem sub (hv : |v - w| ≤ B) (k : ℤ) (h : B + (ε + δ) ≤ 2 ^ k) (hk : -125 ≤ k ∧ k ≤ 127) :
    Near (x - y) (v - w) (ε + δ + 2 ^ (k - 25)) := by
  have herror : |value x - value y - (v - w)| ≤ ε + δ := by
    rw [sub_sub_sub_comm]
    exact (abs_sub _ _).trans (add_le_add hx.error hy.error)
  exact of_rounded (sub_near hx.finite hy.finite ((abs_le_of_sub herror hv).trans h) hk) herror

/-- A product: each error is multiplied by the other factor, and the rounding comes on top. -/
theorem mul (hv : |v| ≤ B) (hw : |w| ≤ C) (k : ℤ) (h : B * C + (B * δ + C * ε + ε * δ) ≤ 2 ^ k)
    (hk : -125 ≤ k ∧ k ≤ 127) :
    Near (x * y) (v * w) (B * δ + C * ε + ε * δ + 2 ^ (k - 25)) := by
  have hB : 0 ≤ B := (abs_nonneg v).trans hv
  have herror : |value x * value y - v * w| ≤ B * δ + C * ε + ε * δ := by
    -- each factor's error beside the other exact factor, and both errors together
    have hsplit : value x * value y - v * w =
        v * (value y - w) + w * (value x - v) + (value x - v) * (value y - w) := by ring
    rw [hsplit]
    refine (abs_add_three _ _ _).trans ?_
    rw [abs_mul, abs_mul, abs_mul]
    have hε := hx.nonneg
    have hδ := hy.nonneg
    have hC : 0 ≤ C := (abs_nonneg w).trans hw
    gcongr
    · exact hy.error
    · exact hx.error
    · exact hx.error
    · exact hy.error
  have hprod : |v * w| ≤ B * C := by
    rw [abs_mul]
    gcongr
  exact of_rounded (mul_near hx.finite hy.finite ((abs_le_of_sub herror hprod).trans h) hk) herror

/-- A quotient, of which the divisor stays away from zero by `C`. -/
theorem div (hw : C + δ ≤ |w|) (hC : 0 < C) (hq : |v / w| ≤ Q) (k : ℤ)
    (h : Q + (ε + Q * δ) / C ≤ 2 ^ k) (hk : -125 ≤ k ∧ k ≤ 127) :
    Near (x / y) (v / w) ((ε + Q * δ) / C + 2 ^ (k - 25)) := by
  have hδ := hy.nonneg
  have hε := hx.nonneg
  have hne : w ≠ 0 := abs_pos.mp (by linarith)
  -- the computed divisor is off by `δ` at most, so it stays away from zero too
  have hy' : C ≤ |value y| := by
    have := abs_sub_abs_le_abs_sub w (value y)
    rw [abs_sub_comm] at this
    linarith [hy.error]
  have hney : value y ≠ 0 := abs_pos.mp (hC.trans_le hy')
  have herror : |value x / value y - v / w| ≤ (ε + Q * δ) / C := by
    -- over the computed divisor, both errors stand in the numerator
    have hsplit : value x / value y - v / w =
        ((value x - v) - v / w * (value y - w)) / value y := by
      field_simp
      ring
    rw [hsplit, abs_div]
    have hQ : 0 ≤ Q := (abs_nonneg _).trans hq
    gcongr
    refine (abs_sub _ _).trans ?_
    rw [abs_mul]
    gcongr
    · exact hx.error
    · exact hy.error
  exact of_rounded
    (div_near hx.finite hy.finite hney ((abs_le_of_sub herror hq).trans h) hk) herror

end

end Near

end DynamicRange.Binary
