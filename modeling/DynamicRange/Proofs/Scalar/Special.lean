import DynamicRange.Proofs.Scalar.Error

/-!
# Infinities and NaNs

An operation with an infinity or a NaN does not give a number, except that a number divided by an
infinity is zero. So a number at the end of a computation without a division says that all numbers
in it were finite. What comes of an infinity is told as well, and which numbers are one and the
same.

## Key results

- `Finite.of_add`, `Finite.of_sub`, `Finite.of_mul`: the operands of a finite result
- `infinity_add`, `infinity_sub`, `infinity_div`, `sub_infinity`, `mul_of_not_finite`: operations
  with an infinity or NaN
- `finite_or_infinity_or_nan`: there is nothing else
- `not_pos_of_not_finite`: the only positive value that is not a number
- `eq_of_value_eq`, `mul_one_eq`: numbers, and not only their values
- `toBits_ofBits`: words are kept, but those of NaNs
-/

namespace DynamicRange.Binary

open Float.Model (UnpackedFloat)
open Float.Model.UnpackedFloat

/-! ### Bits of infinities and NaNs -/

section Bits

variable {f : Float.Model.Format} {u v : UnpackedFloat}

/-- A number that is too large for the format is kept as an infinity of its sign. -/
theorem unpack_pack_of_overflow {s : Sign} {m : ℕ} {e : ℤ} {hm : 0 < m}
    (hf : 2 ≤ f.exponentBits) (h : Canonical f m e) (hle : 2 ^ overflow f ≤ (m : ℚ) * 2 ^ e) :
    unpack f (pack f (.finite s m e hm)) = .infinity s := by
  -- a value that large has an exponent beyond the greatest
  have hexponent := mt (h.lt_iff hf).mpr hle.not_gt
  have hbias := exponentBias_eq f
  have hbits := mantissaBits_eq f
  have hwidth := two_pow_exponentBits f
  rw [pack, if_pos (by omega)]
  exact unpack_packedInfinity s

/-- Keeping a number does not make one of what is none. -/
theorem isFinite_of_unpack_pack (h : (unpack f (pack f u)).isFinite = true) :
    u.isFinite = true := by
  cases hu : u.isFinite with
  | true => rfl
  | false =>
    rw [unpack_pack_of_not_isFinite hu, hu] at h
    exact absurd h Bool.false_ne_true

/-- Neither operand of a finite sum, difference or product is an infinity or a NaN. -/
private theorem isFinite_of_add (h : (add f u v).isFinite = true) :
    u.isFinite = true ∧ v.isFinite = true := by
  rcases u with (_ | _) | _ | s | ⟨s, m, e, hm⟩ <;>
    rcases v with (_ | _) | _ | s' | ⟨s', m', e', hm'⟩ <;>
    first | exact ⟨rfl, rfl⟩ | exact absurd h Bool.false_ne_true

/-- Nor is one of a finite difference. -/
private theorem isFinite_of_sub (h : (sub f u v).isFinite = true) :
    u.isFinite = true ∧ v.isFinite = true := by
  rcases u with (_ | _) | _ | s | ⟨s, m, e, hm⟩ <;>
    rcases v with (_ | _) | _ | s' | ⟨s', m', e', hm'⟩ <;>
    first | exact ⟨rfl, rfl⟩ | exact absurd h Bool.false_ne_true

/-- Nor is one of a finite product. -/
private theorem isFinite_of_mul (h : (mul f u v).isFinite = true) :
    u.isFinite = true ∧ v.isFinite = true := by
  rcases u with (_ | _) | _ | s | ⟨s, m, e, hm⟩ <;>
    rcases v with (_ | _) | _ | s' | ⟨s', m', e', hm'⟩ <;>
    first | exact ⟨rfl, rfl⟩ | exact absurd h Bool.false_ne_true

/-- A number does not move a positive infinity. -/
private theorem add_of_isFinite (hv : v.isFinite = true) :
    add f (.infinity .positive) v = .infinity .positive := by
  cases v with
  | infinity s | notANumber => exact absurd hv Bool.false_ne_true
  | zero s | finite s m e hm => rfl

/-- Nor does a number move it by a difference, from either side. -/
private theorem sub_of_isFinite (hv : v.isFinite = true) :
    sub f (.infinity .positive) v = .infinity .positive ∧
      sub f v (.infinity .positive) = .infinity .negative := by
  cases v with
  | infinity s | notANumber => exact absurd hv Bool.false_ne_true
  | zero s | finite s m e hm => exact ⟨rfl, rfl⟩

end Bits

section Packed

variable {α : Type} {f : Float.Model.Format} [Add α] [Sub α] [Mul α] [Div α] [Neg α] [LT α] [LE α]
  [Packed α f] {x y : α}

/-- The terms of a finite sum are finite. -/
theorem Finite.of_add (h : Finite (x + y)) : Finite x ∧ Finite y := by
  have h : (unpack f (Packed.bits (x + y))).isFinite = true := h
  rw [Packed.unpack_add] at h
  exact isFinite_of_add (isFinite_of_unpack_pack h)

/-- The terms of a finite difference are finite. -/
theorem Finite.of_sub (h : Finite (x - y)) : Finite x ∧ Finite y := by
  have h : (unpack f (Packed.bits (x - y))).isFinite = true := h
  rw [Packed.unpack_sub] at h
  exact isFinite_of_sub (isFinite_of_unpack_pack h)

/-- The factors of a finite product are finite. -/
theorem Finite.of_mul (h : Finite (x * y)) : Finite x ∧ Finite y := by
  have h : (unpack f (Packed.bits (x * y))).isFinite = true := h
  rw [Packed.unpack_mul] at h
  exact isFinite_of_mul (isFinite_of_unpack_pack h)

/-- What is strictly between two finite numbers is finite. -/
theorem Finite.of_lt_of_lt {a b : α} (ha : Finite a) (hb : Finite b) (hax : a < x) (hxb : x < b) :
    Finite x := by
  -- by the unpacked floats: of all shapes only a finite one is between two finite ones
  have ha' : (unpacked a).isFinite = true := ha
  have hb' : (unpacked b).isFinite = true := hb
  rw [Packed.lt_iff_compare, ← unpacked, ← unpacked] at hax hxb
  rw [Finite]
  generalize unpacked a = u at ha' hax
  generalize unpacked b = v at hb' hxb
  generalize unpacked x = w at hax hxb ⊢
  rcases w with (_ | _) | _ | s | ⟨s, m, e, hm⟩ <;> try rfl
  · -- a negative infinity is not above a finite number
    rcases u with _ | _ | _ | ⟨_ | _, m, e, _⟩ <;>
      first | exact absurd ha' Bool.false_ne_true | cases hax
  -- nor is a positive infinity below one
  · rcases v with _ | _ | _ | ⟨_ | _, m, e, _⟩ <;>
      first | exact absurd hb' Bool.false_ne_true | cases hxb
  -- and NaN is above nothing
  · rcases u with _ | _ | _ | _ <;> cases hax

/-- A positive number, taken apart. -/
theorem exists_of_pos (hy : Finite y) (hpos : 0 < value y) :
    ∃ m e hm, unpacked y = .finite .positive m e hm := by
  have hy' : (unpacked y).isFinite = true := hy
  rw [value] at hpos
  generalize unpacked y = v at hy' hpos ⊢
  rcases v with s | _ | s | ⟨_ | _, m, e, hm⟩
  · exact absurd hy' Bool.false_ne_true
  · exact absurd hy' Bool.false_ne_true
  · exact absurd hpos (lt_irrefl _)
  · have hnonpos : -((m : ℚ) * 2 ^ e) ≤ 0 := neg_nonpos.mpr (by positivity)
    exact absurd hpos hnonpos.not_gt
  · exact ⟨m, e, hm, rfl⟩

end Packed

/-! ### Passing between precisions -/

/-- Rounding to another format makes no number of what is none. -/
private theorem isFinite_of_reround {f : Float.Model.Format} {u : UnpackedFloat}
    (h : (Scalar.reround f u).isFinite = true) : u.isFinite = true := by
  cases u with
  | infinity s | notANumber => exact absurd h Bool.false_ne_true
  | zero s | finite s m e hm => rfl

/-- What is finite in double precision was finite before. -/
theorem Finite.of_widen {x : Float32} (h : Finite (Scalar.widen x)) : Finite x :=
  isFinite_of_reround (isFinite_of_unpack_pack h)

/-- What is finite in single precision was finite before. -/
theorem Finite.of_narrow {x : Float} (h : Finite (Scalar.narrow x)) : Finite x :=
  isFinite_of_reround (isFinite_of_unpack_pack h)

/-- What has a finite magnitude is finite. -/
theorem Finite.of_abs {x : Float32} (h : Finite x.abs) : Finite x := by
  have habs : (unpacked x).abs.isFinite = true := isFinite_of_unpack_pack h
  rw [Finite]
  generalize unpacked x = u at habs
  cases u with
  | infinity s | notANumber => exact absurd habs Bool.false_ne_true
  | zero s | finite s m e hm => rfl

/-! ### Infinities and NaN -/

variable {x y : Float32}

/-- Infinity, unpacked. -/
theorem unpacked_infinity : unpacked Scalar.infinity = .infinity .positive := rfl

/-- The negative infinity, unpacked. -/
theorem unpacked_neg_infinity : unpacked (-Scalar.infinity) = .infinity .negative := rfl

/-- NaN, unpacked. -/
theorem unpacked_nan : unpacked Scalar.nan = .notANumber := rfl

/-- Infinity is not finite. -/
theorem not_finite_infinity : ¬Finite Scalar.infinity := Bool.false_ne_true

/-- Nor is the negative one. -/
theorem not_finite_neg_infinity : ¬Finite (-Scalar.infinity) := Bool.false_ne_true

/-- Nor is NaN. -/
theorem not_finite_nan : ¬Finite Scalar.nan := Bool.false_ne_true

/-- A float is what its bits stand for; all NaNs are one. -/
theorem eq_of_unpacked_eq (h : unpacked x = unpacked y) : x = y := Single.eq_of_unpack_eq h

/-- A float is a number, an infinity of either sign, or the one NaN. -/
theorem finite_or_infinity_or_nan (x : Float32) :
    Finite x ∨ x = Scalar.infinity ∨ x = -Scalar.infinity ∨ x = Scalar.nan := by
  cases hu : unpacked x with
  | zero s | finite s m e hm =>
    left
    rw [Finite, hu]
    rfl
  | infinity s =>
    cases s with
    | positive => exact .inr (.inl (eq_of_unpacked_eq hu))
    | negative => exact .inr (.inr (.inl (eq_of_unpacked_eq hu)))
  | notANumber => exact .inr (.inr (.inr (eq_of_unpacked_eq hu)))

/-- A result that is an infinity. -/
private theorem eq_of_unpack_pack {s : Sign} {u : UnpackedFloat}
    (hx : unpacked x = unpack .binary32 (pack .binary32 u)) (hu : u = .infinity s)
    (hy : unpacked y = .infinity s) : x = y := by
  apply eq_of_unpacked_eq
  rw [hx, hu, hy]
  exact unpack_packedInfinity s

/-- A number added to infinity is lost. -/
theorem infinity_add (hy : Finite y) : Scalar.infinity + y = Scalar.infinity := by
  have hadd : add .binary32 (.infinity .positive) (unpacked y) = .infinity .positive :=
    add_of_isFinite hy
  exact eq_of_unpack_pack (Packed.unpack_add _ _) hadd rfl

/-- A number subtracted from infinity is lost. -/
theorem infinity_sub (hy : Finite y) : Scalar.infinity - y = Scalar.infinity := by
  have hsub : sub .binary32 (.infinity .positive) (unpacked y) = .infinity .positive :=
    (sub_of_isFinite hy).1
  exact eq_of_unpack_pack (Packed.unpack_sub _ _) hsub rfl

/-- Infinity subtracted from a number is the negative infinity. -/
theorem sub_infinity (hx : Finite x) : x - Scalar.infinity = -Scalar.infinity := by
  have hsub : sub .binary32 (unpacked x) (.infinity .positive) = .infinity .negative :=
    (sub_of_isFinite hx).2
  exact eq_of_unpack_pack (Packed.unpack_sub _ _) hsub rfl

/-- Infinity divided by a positive number is infinity. -/
theorem infinity_div (hy : Finite y) (hpos : 0 < value y) :
    Scalar.infinity / y = Scalar.infinity := by
  obtain ⟨m, e, hm, hu⟩ := exists_of_pos hy hpos
  have hdiv : div .binary32 (.infinity .positive) (unpacked y) = .infinity .positive := by
    rw [hu]
    rfl
  exact eq_of_unpack_pack (Packed.unpack_div _ _) hdiv rfl

/-- A product with a positive number leaves infinities and NaN as they are. -/
theorem mul_of_not_finite (hy : Finite y) (hpos : 0 < value y) (hx : ¬Finite x) : x * y = x := by
  obtain ⟨m, e, hm, hu⟩ := exists_of_pos hy hpos
  have hmul : unpacked (x * y) = unpack .binary32 (pack .binary32
      (mul .binary32 (unpacked x) (unpacked y))) := Packed.unpack_mul x y
  apply eq_of_unpacked_eq
  rw [Finite] at hx
  rw [hmul, hu]
  -- infinities keep their sign, as the factor is positive
  generalize unpacked x = u at hx ⊢
  cases u with
  | infinity s =>
    cases s <;> exact unpack_packedInfinity _
  | notANumber => exact unpack_packedNaN
  | zero s | finite s m e hm => exact absurd rfl hx

/-- Infinity less infinity is NaN. -/
theorem infinity_sub_infinity : Scalar.infinity - Scalar.infinity = Scalar.nan :=
  eq_of_unpacked_eq rfl

/-- Numbers lie between the infinities. -/
private theorem compare_infinity (hx : Finite x) :
    (unpacked x).compare (unpacked Scalar.infinity) = some .lt ∧
      (unpacked Scalar.infinity).compare (unpacked x) = some .gt ∧
      (unpacked x).compare (unpacked (-Scalar.infinity)) = some .gt ∧
      (unpacked (-Scalar.infinity)).compare (unpacked x) = some .lt := by
  have hx' : (unpacked x).isFinite = true := hx
  rw [unpacked_infinity, unpacked_neg_infinity]
  generalize unpacked x = u at hx'
  cases u with
  | infinity s | notANumber => exact absurd hx' Bool.false_ne_true
  | zero s | finite s m e hm => exact ⟨rfl, rfl, rfl, rfl⟩

/-- A number is below infinity. -/
theorem lt_infinity (hx : Finite x) : x < Scalar.infinity :=
  (Packed.lt_iff_compare ..).mpr (compare_infinity hx).1

/-- It is at most infinity, too. -/
theorem le_infinity (hx : Finite x) : x ≤ Scalar.infinity := by
  rw [Packed.le_iff_compare, ← unpacked, ← unpacked, (compare_infinity hx).1]
  rfl

/-- The negative infinity is below a number. -/
theorem neg_infinity_lt (hx : Finite x) : -Scalar.infinity < x :=
  (Packed.lt_iff_compare ..).mpr (compare_infinity hx).2.2.2

/-- Infinity is not below a number. -/
theorem not_infinity_lt (hx : Finite x) : ¬Scalar.infinity < x := by
  rw [Packed.lt_iff_compare, ← unpacked, ← unpacked, (compare_infinity hx).2.1]
  decide

/-- Nor is it at most a number. -/
theorem not_infinity_le (hx : Finite x) : ¬Scalar.infinity ≤ x := by
  rw [Packed.le_iff_compare, ← unpacked, ← unpacked, (compare_infinity hx).2.1]
  decide

/-- A number is not at most the negative infinity. -/
theorem not_le_neg_infinity (hx : Finite x) : ¬x ≤ -Scalar.infinity := by
  rw [Packed.le_iff_compare, ← unpacked, ← unpacked, (compare_infinity hx).2.2.1]
  decide

/-- Nor is it below it. -/
theorem not_lt_neg_infinity (hx : Finite x) : ¬x < -Scalar.infinity := by
  rw [Packed.lt_iff_compare, ← unpacked, ← unpacked, (compare_infinity hx).2.2.1]
  decide

/-- NaN is below nothing. -/
theorem not_nan_lt (y : Float32) : ¬Scalar.nan < y := by
  rw [Packed.lt_iff_compare, ← unpacked, ← unpacked, unpacked_nan]
  exact (Option.some_ne_none _).symm

/-- Nothing is below NaN. -/
theorem not_lt_nan (y : Float32) : ¬y < Scalar.nan := by
  rw [Packed.lt_iff_compare, ← unpacked, ← unpacked, unpacked_nan]
  cases unpacked y <;> exact (Option.some_ne_none _).symm

/-- Of what is not finite only the one infinity is positive. -/
theorem not_pos_of_not_finite (hx : ¬Finite x) (hne : x ≠ Scalar.infinity) : ¬0 < x := by
  have hzero : unpacked (0 : Float32) = .zero .positive := rfl
  rw [Packed.lt_iff_compare, ← unpacked, ← unpacked, hzero]
  rw [Finite] at hx
  cases hu : unpacked x with
  | infinity s =>
    cases s with
    | positive => exact absurd (eq_of_unpacked_eq (hu.trans unpacked_infinity.symm)) hne
    | negative => exact fun h => absurd (Option.some.inj h) (by decide)
  | notANumber => exact (Option.some_ne_none _).symm
  | zero s | finite s m e hm =>
    rw [hu] at hx
    exact absurd rfl hx

/-! ### Numbers by their values -/

/-- What is a number already is not rounded. -/
theorem Rounds.exact {v : ℚ} (h : Rounds x v) (hv : IsNumber .binary32 v) : value x = v :=
  h.value_eq.trans (nearest_of_isNumber hv)

/-- A product with one, from the left, has the same value. -/
theorem one_mul_exact (hx : Finite x) : Finite (1 * x) ∧ value (1 * x) = value x := by
  have hproduct : value (1 : Float32) * value x = value x := by
    rw [near_one.value_eq, one_mul]
  have hrounds := mul_rounds near_one.finite hx
    (by rw [hproduct, nearest_of_isNumber hx.isNumber]; exact hx.abs_value_lt)
  rw [hproduct] at hrounds
  exact ⟨hrounds.finite, hrounds.exact hx.isNumber⟩

/-- What zero is subtracted from keeps its value. -/
theorem sub_zero_exact (hx : Finite x) : Finite (x - 0) ∧ value (x - 0) = value x := by
  have hdiff : value x - value (0 : Float32) = value x := by rw [near_zero.value_eq, sub_zero]
  have hrounds := sub_rounds hx near_zero.finite
    (by rw [hdiff, nearest_of_isNumber hx.isNumber]; exact hx.abs_value_lt)
  rw [hdiff] at hrounds
  exact ⟨hrounds.finite, hrounds.exact hx.isNumber⟩

/-- Only one number has a value that is not zero. -/
theorem eq_of_value_eq (hx : Finite x) (hy : Finite y) (h : value x = value y)
    (hne : value x ≠ 0) : x = y := by
  -- equal values compare as equal, and floats that compare as equal are equal or both zero
  have hcompare := compare_eq hx.isCanonical hy.isCanonical
  have hcmp : cmp (toRat (unpacked x)) (toRat (unpacked y)) = .eq := (cmp_eq_eq_iff _ _).mpr h
  rw [hcmp] at hcompare
  have hbeq : (unpacked x).beq (unpacked y) = true := beq_iff_eq.mpr hcompare
  rcases (Float32.beq_iff_ne_nan_and_eq.mp hbeq).2.2 with heq | ⟨rfl, -⟩ | ⟨rfl, -⟩
  · exact heq
  · exact absurd rfl hne
  · exact absurd rfl hne

/-- Zero has a representation for each sign. -/
theorem exists_zero_of_value_eq_zero (hx : Finite x) (hzero : value x = 0) :
    ∃ s, unpacked x = .zero s := by
  have hx' : (unpacked x).isFinite = true := hx
  rw [value] at hzero
  generalize unpacked x = u at hx' hzero
  cases u with
  | zero s => exact ⟨s, rfl⟩
  | infinity s | notANumber => exact absurd hx' Bool.false_ne_true
  | finite s m e hm =>
    have hpos : (0 : ℚ) < m * 2 ^ e := by positivity
    cases s with
    | positive => exact absurd hzero hpos.ne'
    | negative => exact absurd hzero (neg_neg_of_pos hpos).ne

/-- A product with one is the same number, also for zeros of either sign. -/
theorem mul_one_eq (hx : Finite x) : x * 1 = x := by
  obtain ⟨hfinite, hvalue⟩ := mul_one_exact hx near_one.finite near_one.value_eq
  -- by the value, which leaves the sign of a zero open; so for zero by the representation
  by_cases hzero : value x = 0
  · obtain ⟨s, hs⟩ := exists_zero_of_value_eq_zero hx hzero
    have hone : unpacked (1 : Float32) = .finite .positive 8388608 (-23) (by decide) := rfl
    have hmul : unpacked (x * 1) = unpack .binary32 (pack .binary32
      (mul .binary32 (unpacked x) (unpacked (1 : Float32)))) := Packed.unpack_mul _ _
    apply eq_of_unpacked_eq
    rw [hmul, hs, hone]
    cases s <;> rfl
  · exact eq_of_value_eq hfinite hx hvalue (by rwa [hvalue])

/-- A word is kept, but that of a NaN. -/
theorem toBits_ofBits {b : UInt32} (h : (Float32.ofBits b).isNaN = false) :
    (Float32.ofBits b).toBits = b := by
  -- packing what is unpacked gives the word again, unless it is a word of NaN
  have hpack := @pack_unpack .binary32 b.toBitVec (by decide)
  have hbits : ¬@isNaNBits .binary32 b.toBitVec = true := by
    intro hnan
    have hunpack : unpacked (Float32.ofBits b) =
        unpack .binary32 (pack .binary32 (unpack .binary32 b.toBitVec)) := rfl
    have hnone : (unpacked (Float32.ofBits b)).isNaN = false := h
    rw [hunpack, hpack, if_pos hnan, unpack_packedNaN] at hnone
    exact Bool.false_ne_true hnone.symm
  rw [if_neg hbits] at hpack
  exact UInt32.toBitVec_inj.mp hpack

end DynamicRange.Binary
