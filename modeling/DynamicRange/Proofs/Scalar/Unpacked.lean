import DynamicRange.Proofs.Decimal.Rounding
import DynamicRange.Proofs.Scalar.Nearest
import DynamicRange.Scalar.Conversion

/-!
# Arithmetic of unpacked floats

A float is taken apart into a sign, a mantissa and an exponent. On what stands for a number each
operation gives the nearest number of the format to the exact result, in the form in which the
format keeps it. Too large an exponent is not noticed here, only when the result is put together.

## Key results

- `toRat`, `IsCanonical`: the number that a float stands for, and its form
- `roundWithAccuracy_spec`: rounding gives the nearest number
- `add_spec`, `sub_spec`, `mul_spec`, `div_spec`, `sqrt_spec`, `round_spec`: the operations
- `compare_eq`: comparing floats is comparing the numbers
-/

namespace DynamicRange.Binary

open Float.Model (UnpackedFloat totalExponent)
open Float.Model.UnpackedFloat
open Single (Represents totalExponent_eq_log log_lt_of_mantissa_eq_zero
  mantissa_ofMantissaAndAccuracy represents_exact represents_quotient)

variable {f : Float.Model.Format} {s t : Sign} {m n : ℕ} {e k : ℤ} {v : ℚ}

/-! ### Numbers and their form -/

/-- A number with a sign. -/
def signed : Sign → ℚ → ℚ
  | .positive, x => x
  | .negative, x => -x

/-- The number that an unpacked float stands for, zero for those that stand for none. -/
def toRat : UnpackedFloat → ℚ
  | .finite s m e _ => signed s (m * 2 ^ e)
  | .zero _ | .infinity _ | .notANumber => 0

/-- A float that stands for a number, in the form in which the format keeps it. -/
def IsCanonical (f : Float.Model.Format) : UnpackedFloat → Prop
  | .finite _ m e _ => Canonical f m e
  | .zero _ => True
  | .infinity _ | .notANumber => False

/-- A negative sign instead of a positive one gives the opposite. -/
theorem signed_neg (s : Sign) (x : ℚ) : signed (-s) x = -signed s x := by
  cases s
  · exact (neg_neg x).symm
  · rfl

/-- Signs are multiplied as the numbers are. -/
theorem signed_mul (s t : Sign) (x y : ℚ) : signed (s * t) (x * y) = signed s x * signed t y := by
  cases s <;> cases t
  · exact (neg_mul_neg x y).symm
  · exact (neg_mul x y).symm
  · exact (mul_neg x y).symm
  · rfl

/-- Signs are divided as the numbers are. -/
theorem signed_div (s t : Sign) (x y : ℚ) : signed (s / t) (x / y) = signed s x / signed t y := by
  cases s <;> cases t
  · exact (neg_div_neg_eq x y).symm
  · exact (neg_div y x).symm
  · exact (div_neg x).symm
  · rfl

/-- A sign on a mantissa is a sign on its multiples. -/
theorem signed_apply (s : Sign) (n : ℤ) (x : ℚ) : ((s.apply n : ℤ) : ℚ) * x = signed s (n * x) := by
  cases s
  · show ((-n : ℤ) : ℚ) * x = -(n * x)
    push_cast
    ring
  · rfl

/-- Rounding does not look at the sign. -/
theorem nearest_signed (s : Sign) (x : ℚ) : nearest f (signed s x) = signed s (nearest f x) := by
  cases s
  · exact nearest_neg f x
  · rfl

/-- A sign does not change the magnitude. -/
theorem abs_signed (s : Sign) (x : ℚ) : |signed s x| = |x| := by
  cases s
  · exact abs_neg x
  · rfl

/-- The opposite of a float stands for the opposite number. -/
theorem toRat_neg (u : UnpackedFloat) : toRat u.neg = -toRat u := by
  cases u with
  | finite s m e h => exact signed_neg s _
  | zero s | infinity s | notANumber => exact neg_zero.symm

/-- The magnitude of a float stands for the magnitude of the number. -/
theorem toRat_abs (u : UnpackedFloat) : toRat u.abs = |toRat u| := by
  cases u with
  | finite s m e h =>
    have hpos : (0 : ℚ) ≤ m * 2 ^ e := by positivity
    rw [toRat, abs_signed, abs_of_nonneg hpos]
    rfl
  | zero s | infinity s | notANumber => exact abs_zero.symm

/-- What a format keeps as a number is finite. -/
theorem IsCanonical.isFinite {u : UnpackedFloat} (h : IsCanonical f u) : u.isFinite = true := by
  cases u with
  | finite s m e hm => rfl
  | zero s => rfl
  | infinity s | notANumber => exact h.elim

/-- A mantissa and an exponent that a format keeps give one of its numbers. -/
theorem Canonical.isNumber (h : Canonical f m e) : IsNumber f (m * 2 ^ e) := by
  refine ⟨m, e, ?_, h.ge, by push_cast; rfl⟩
  rw [Nat.abs_cast]
  exact_mod_cast h.lt.le

/-- A float that a format keeps stands for one of its numbers. -/
theorem IsCanonical.isNumber {u : UnpackedFloat} (h : IsCanonical f u) :
    IsNumber f (toRat u) := by
  cases u with
  | finite s m e hm =>
    cases s
    · exact (Canonical.isNumber h).neg
    · exact Canonical.isNumber h
  | zero s => exact isNumber_zero
  | infinity s | notANumber => exact h.elim

/-! ### The exponent of a number -/

/-- The total exponent counts the bits before the point of the number. -/
theorem totalExponent_eq (hm : 0 < m) (e : ℤ) :
    totalExponent m e = Int.log 2 ((m : ℚ) * 2 ^ e) + 1 := by
  have htwo : (0 : ℚ) < 2 ^ e := zpow_pos two_pos e
  have hrepresents : Represents (.ofMantissaAndAccuracy m .exact) (m * 2 ^ e / 2 ^ e) := by
    rw [mul_div_cancel_right₀ _ htwo.ne']
    exact represents_exact m
  exact totalExponent_eq_log hrepresents hm (by positivity)

/-- The exponent that the format asks for: as many bits as there are, but not below the least one.
-/
theorem targetExponent_eq (f : Float.Model.Format) (j : ℤ) :
    f.targetExponent j = max (j - f.mantissaBits) f.minExponent := rfl

/-- The exponent that the format asks for is the one that the number is rounded to. -/
theorem targetExponent_totalExponent (hm : 0 < m) (e : ℤ) :
    f.targetExponent (totalExponent m e) = unitExponent f (m * 2 ^ e) := by
  have hpos : (0 : ℚ) < m * 2 ^ e := by positivity
  rw [targetExponent_eq, totalExponent_eq hm, unitExponent, abs_of_pos hpos]

/-! ### Rounding -/

/-- A mantissa with the bits that were shifted out of it is rounded as the exact number is. -/
theorem roundedMantissa_eq {em : ExtendedMantissa} {x : ℚ} (h : Represents em x) :
    (em.roundedMantissa : ℤ) = roundEven x := by
  have hfloor : ⌊x⌋ = (em.mantissa : ℤ) := by
    rw [Int.floor_eq_iff]
    exact_mod_cast h.floor
  -- the two bits beside the mantissa tell in which half the number lies, and whether in the middle
  rw [roundEven, hfloor]
  obtain ⟨mantissa, round, sticky⟩ := em
  cases round <;> cases sticky <;>
    simp only [Represents, ExtendedMantissa.roundedMantissa, ExtendedMantissa.accuracy,
      Accuracy.roundToNearestEven, Int.cast_natCast] at h ⊢ <;>
    push_cast <;> split_ifs <;> first | rfl | linarith

/-- The bits that are too many are dropped, whatever their number. -/
theorem shiftToTargetExponent_spec {accuracy : Accuracy} (hv : 0 < v)
    (h : Represents (.ofMantissaAndAccuracy m accuracy) (v / 2 ^ e))
    (hle : e ≤ unitExponent f v) :
    Represents (shiftToTargetExponent f m e accuracy).1 (v / 2 ^ unitExponent f v) ∧
      (shiftToTargetExponent f m e accuracy).2 = unitExponent f v := by
  have hmantissa := mantissa_ofMantissaAndAccuracy m accuracy
  have htarget : max e (f.targetExponent (totalExponent m e)) = unitExponent f v := by
    rw [targetExponent_eq]
    rw [unitExponent, abs_of_pos hv] at hle ⊢
    rcases Nat.eq_zero_or_pos m with hzero | hpos
    -- otherwise the leading bit tells the binade of the number
    · -- with no bit before the point the least exponent is reached already
      have hlog := log_lt_of_mantissa_eq_zero h (hmantissa.trans hzero) hv
      have hbits : 1 ≤ f.mantissaBits := Nat.le_add_right ..
      rw [totalExponent, hzero]
      have hlog2 : Nat.log2 0 = 0 := rfl
      omega
    · have htotal := totalExponent_eq_log h (by rwa [hmantissa]) hv
      rw [hmantissa] at htotal
      rw [htotal]
      omega
  have hshift : ((f.targetExponent (totalExponent m e) - e).toNat : ℤ) =
      unitExponent f v - e := by omega
  have hvalue : v / 2 ^ unitExponent f v =
      v / 2 ^ e / 2 ^ (f.targetExponent (totalExponent m e) - e).toNat := by
    rw [div_div, ← zpow_natCast, hshift, ← zpow_add₀ two_ne_zero]
    congr 2
    omega
  simp only [shiftToTargetExponent, shiftToExponent]
  refine ⟨?_, by omega⟩
  rw [hvalue]
  exact h.shiftRight _

/-- A mantissa that fits is not shifted. -/
theorem shiftToTargetExponent_exact (hlt : m < 2 ^ f.mantissaBits) (he : f.minExponent ≤ e) :
    shiftToTargetExponent f m e .exact = (.ofMantissaAndAccuracy m .exact, e) := by
  have hlog : m.log2 < f.mantissaBits := by
    rcases Nat.eq_zero_or_pos m with rfl | hpos
    · exact Nat.le_add_right ..
    · exact (Nat.log2_lt hpos.ne').mpr hlt
  have hshift : (f.targetExponent (totalExponent m e) - e).toNat = 0 := by
    rw [targetExponent_eq, totalExponent]
    omega
  simp only [shiftToTargetExponent, shiftToExponent, hshift]
  exact congrArg _ (Int.add_zero e)

/-- A mantissa that has become too long by rounding is a power of two, and is shifted once. -/
theorem shiftToTargetExponent_carry (he : f.minExponent ≤ e) :
    shiftToTargetExponent f (2 ^ f.mantissaBits) e .exact =
      (.ofMantissaAndAccuracy (2 ^ f.mantissaBitsWithoutImplicit) .exact, e + 1) := by
  have hshift : (f.targetExponent (totalExponent (2 ^ f.mantissaBits) e) - e).toNat = 1 := by
    rw [targetExponent_eq, totalExponent, Nat.log2_two_pow]
    omega
  have hhalf : 2 ^ f.mantissaBits / 2 = 2 ^ f.mantissaBitsWithoutImplicit := by
    rw [mantissaBits_eq, pow_succ, Nat.mul_div_cancel _ two_pos]
  have heven : 2 ^ f.mantissaBits % 2 = 0 := by
    rw [mantissaBits_eq, pow_succ, Nat.mul_mod_left]
  simp only [shiftToTargetExponent, shiftToExponent, hshift]
  refine Prod.ext ?_ rfl
  show ExtendedMantissa.shiftRightOne (.ofMantissaAndAccuracy (2 ^ f.mantissaBits) .exact) = _
  simp only [ExtendedMantissa.shiftRightOne, ExtendedMantissa.ofMantissaAndAccuracy, hhalf, heven]
  rfl

/-- Rounding gives the nearest number, in the form in which the format keeps it. -/
theorem roundWithAccuracy_spec {accuracy : Accuracy} (s : Sign) (hv : 0 < v)
    (h : Represents (.ofMantissaAndAccuracy m accuracy) (v / 2 ^ e))
    (hle : e ≤ unitExponent f v) :
    IsCanonical f (roundWithAccuracy f s m e accuracy) ∧
      toRat (roundWithAccuracy f s m e accuracy) = nearest f (signed s v) := by
  obtain ⟨hrepresents, hexponent⟩ := shiftToTargetExponent_spec hv h hle
  have hround := roundedMantissa_eq hrepresents
  have hmin : f.minExponent ≤ unitExponent f v := le_max_right ..
  rw [nearest_signed, nearest, ← hround]
  unfold roundWithAccuracy
  simp only [hexponent]
  generalize (shiftToTargetExponent f m e accuracy).1.roundedMantissa = r at hround
  have hbound : r ≤ 2 ^ f.mantissaBits := by
    have := abs_roundEven_unit_le f v
    rw [← hround, Nat.abs_cast] at this
    exact_mod_cast this
  rcases hbound.lt_or_eq with hlt | rfl
  · -- the mantissa has kept its length
    simp only [shiftToTargetExponent_exact hlt hmin, mantissa_ofMantissaAndAccuracy]
    split
    next hzero => exact ⟨trivial, by rw [hzero]; cases s <;> simp [toRat, signed]⟩
    next hpos =>
      refine ⟨⟨Nat.pos_of_ne_zero hpos, hlt, hmin, ?_⟩, rfl⟩
      rcases hmin.eq_or_lt with heq | hlt'
      -- above the least exponent the mantissa has all its bits
      · exact .inr heq.symm
      · left
        have := le_roundEven_unit hv hlt'
        rw [← hround] at this
        exact_mod_cast this
  -- the mantissa has been rounded up to the next power of two
  · simp only [shiftToTargetExponent_carry hmin, mantissa_ofMantissaAndAccuracy]
    have hpos : 0 < 2 ^ f.mantissaBitsWithoutImplicit := Nat.two_pow_pos _
    rw [dif_neg hpos.ne']
    refine ⟨⟨hpos, ?_, by omega, .inl le_rfl⟩, ?_⟩
    · rw [mantissaBits_eq]
      exact Nat.pow_lt_pow_right one_lt_two (Nat.lt_succ_self _)
    · rw [toRat, mantissaBits_eq]
      push_cast
      rw [zpow_add_one₀ two_ne_zero, pow_succ]
      congr 1
      ring

/-! ### Operations -/

/-- A mantissa to which zeros are appended stands for the same number. -/
theorem decreaseExponent_eq (m : ℕ) (e k : ℤ) :
    ((decreaseExponent m e k).1 : ℚ) * 2 ^ (decreaseExponent m e k).2 = m * 2 ^ e ∧
      (decreaseExponent m e k).2 = min e k := by
  have hshift : ((e - k).toNat : ℤ) = e - min e k := by omega
  have hvalue : ((m <<< (e - k).toNat : ℕ) : ℚ) = m * 2 ^ (e - min e k) := by
    rw [Nat.shiftLeft_eq]
    push_cast
    rw [← zpow_natCast, hshift]
  simp only [decreaseExponent, hvalue, hshift, sub_sub_cancel, and_true]
  rw [mul_assoc, ← zpow_add₀ two_ne_zero, sub_add_cancel]

/-- A mantissa of any length is rounded to the nearest number of the format. -/
theorem round_spec (s : Sign) (hm : 0 < m) (e : ℤ) :
    IsCanonical f (round f s m e) ∧
      toRat (round f s m e) = nearest f (signed s (m * 2 ^ e)) := by
  obtain ⟨hvalue, hexponent⟩ := decreaseExponent_eq m e (f.targetExponent (totalExponent m e))
  have hpos : (0 : ℚ) < m * 2 ^ e := by positivity
  unfold Float.Model.UnpackedFloat.round
  simp only
  -- zeros are appended until the exponent is at most the unit, so that nothing is lost before
  -- rounding
  refine roundWithAccuracy_spec s hpos ?_ ?_
  · rw [← hvalue, mul_div_cancel_right₀ _ (zpow_ne_zero _ two_ne_zero)]
    exact represents_exact _
  · rw [hexponent, targetExponent_totalExponent hm]
    exact min_le_right ..

/-- An integer number of units is rounded to the nearest number of the format. -/
theorem normalize_spec (n e : ℤ) (s : Sign) :
    IsCanonical f (UnpackedFloat.normalize f n e s) ∧
      toRat (UnpackedFloat.normalize f n e s) = nearest f (n * 2 ^ e) := by
  unfold UnpackedFloat.normalize
  rcases hcompare : compare n 0 with _ | _ | _ <;> simp only
  · -- a negative number is rounded by its magnitude
    have hneg : n < 0 := Int.compare_eq_lt.mp hcompare
    obtain ⟨hcanonical, hvalue⟩ := round_spec (f := f) .negative (m := (-n).toNat) (by omega) e
    refine ⟨hcanonical, hvalue.trans ?_⟩
    have hcast : (((-n).toNat : ℕ) : ℚ) = -n := by
      have : (((-n).toNat : ℕ) : ℤ) = -n := by omega
      exact_mod_cast this
    rw [hcast, signed, neg_mul, neg_neg]
  · obtain rfl : n = 0 := Int.compare_eq_eq.mp hcompare
    refine ⟨trivial, ?_⟩
    rw [Int.cast_zero, zero_mul, nearest_of_isNumber isNumber_zero]
    rfl
  · have hpos : 0 < n := Int.compare_eq_gt.mp hcompare
    obtain ⟨hcanonical, hvalue⟩ := round_spec (f := f) .positive (m := n.toNat) (by omega) e
    refine ⟨hcanonical, hvalue.trans ?_⟩
    have hcast : ((n.toNat : ℕ) : ℚ) = n := by
      have : ((n.toNat : ℕ) : ℤ) = n := by omega
      exact_mod_cast this
    rw [hcast, signed]

variable {x y : UnpackedFloat}

/-- A sum is rounded to the number nearest to the exact sum. -/
theorem add_spec (hx : IsCanonical f x) (hy : IsCanonical f y) :
    IsCanonical f (add f x y) ∧ toRat (add f x y) = nearest f (toRat x + toRat y) := by
  -- infinities and NaN are no numbers: only zeros and finite numbers are left
  rcases x with s | _ | s | ⟨s, m, e, hm⟩ <;> rcases y with t | _ | t | ⟨t, n, k, hn⟩ <;>
    try contradiction
  · -- zeros
    have hzero : ∃ sign, add f (.zero s) (.zero t) = .zero sign := by
      unfold add
      simp only
      split <;> exact ⟨_, rfl⟩
    obtain ⟨sign, hzero⟩ := hzero
    rw [hzero]
    exact ⟨trivial, by rw [toRat, toRat, toRat, add_zero, nearest_of_isNumber isNumber_zero]⟩
  · have hsum : toRat (.zero s) + toRat (.finite t n k hn) = toRat (.finite t n k hn) :=
      zero_add _
    rw [hsum, nearest_of_isNumber hy.isNumber]
    exact ⟨hy, rfl⟩
  · have hsum : toRat (.finite s m e hm) + toRat (.zero t) = toRat (.finite s m e hm) :=
      add_zero _
    rw [hsum, nearest_of_isNumber hx.isNumber]
    exact ⟨hx, rfl⟩
  · -- both mantissas are brought to the smaller exponent
    obtain ⟨hvalue, hexponent⟩ := decreaseExponent_eq m e (min e k)
    obtain ⟨hvalue', hexponent'⟩ := decreaseExponent_eq n k (min e k)
    rw [hexponent, min_eq_right (min_le_left e k)] at hvalue
    rw [hexponent', min_eq_right (min_le_right e k)] at hvalue'
    obtain ⟨hcanonical, hsum⟩ := normalize_spec (f := f)
      (s.apply (decreaseExponent m e (min e k)).1 + t.apply (decreaseExponent n k (min e k)).1)
      (min e k) .positive
    refine ⟨hcanonical, hsum.trans ?_⟩
    push_cast
    rw [add_mul, signed_apply, signed_apply, Int.cast_natCast, Int.cast_natCast, hvalue, hvalue',
      toRat, toRat]

/-- To subtract is to add the opposite. -/
theorem sub_eq_add (f : Float.Model.Format) (x y : UnpackedFloat) :
    sub f x y = add f x y.neg := by
  rcases x with s | _ | s | ⟨s, m, e, hm⟩ <;>
    rcases y with ⟨_ | _⟩ | _ | ⟨_ | _⟩ | ⟨_ | _, n, k, hn⟩ <;> try rfl
  -- a negative number is left, whose opposite loses both signs
  show UnpackedFloat.normalize f (_ - -_) _ _ = UnpackedFloat.normalize f (_ + _) _ _
  rw [Int.sub_neg]
  rfl

/-- The opposite of a float that a format keeps has the form of the format too. -/
theorem IsCanonical.neg (h : IsCanonical f x) : IsCanonical f x.neg := by
  cases x with
  | finite s m e hm => exact h
  | zero s => trivial
  | infinity s | notANumber => exact h

/-- The magnitude of a float that a format keeps has the form of the format too. -/
theorem IsCanonical.abs (h : IsCanonical f x) : IsCanonical f x.abs := by
  cases x with
  | finite s m e hm => exact h
  | zero s => trivial
  | infinity s | notANumber => exact h

/-- A difference is rounded to the number nearest to the exact difference. -/
theorem sub_spec (hx : IsCanonical f x) (hy : IsCanonical f y) :
    IsCanonical f (sub f x y) ∧ toRat (sub f x y) = nearest f (toRat x - toRat y) := by
  rw [sub_eq_add, sub_eq_add_neg, ← toRat_neg]
  exact add_spec hx hy.neg

/-- The exponents of a product are small enough for rounding. -/
private theorem Canonical.add_le_unitExponent (h : Canonical f m e) (h' : Canonical f n k) :
    e + k ≤ unitExponent f (((m * n : ℕ) : ℚ) * 2 ^ (e + k)) := by
  have hpos : 0 < m * n := Nat.mul_pos h.pos h'.pos
  have hmin := minExponent_nonpos f
  -- with at least as many bits as a mantissa has, the product is not shifted up
  have hlong : f.mantissaBitsWithoutImplicit ≤ (m * n).log2 →
      e + k ≤ f.targetExponent (totalExponent (m * n) (e + k)) := by
    intro hlog
    rw [targetExponent_eq, totalExponent, mantissaBits_eq]
    push_cast
    omega
  rw [← targetExponent_totalExponent hpos]
  rcases h.normal with hm | rfl
  · exact hlong ((Nat.le_log2 hpos.ne').mpr (hm.trans (Nat.le_mul_of_pos_right m h'.pos)))
  · rcases h'.normal with hn | rfl
    · exact hlong ((Nat.le_log2 hpos.ne').mpr (hn.trans (Nat.le_mul_of_pos_left n h.pos)))
    -- both exponents are the least one, which is not positive
    · rw [targetExponent_eq]
      omega

/-- A product is rounded to the number nearest to the exact product. -/
theorem mul_spec (hx : IsCanonical f x) (hy : IsCanonical f y) :
    IsCanonical f (mul f x y) ∧ toRat (mul f x y) = nearest f (toRat x * toRat y) := by
  have hzero : ∀ s t : Sign, IsCanonical f (.zero (s * t)) ∧
      toRat (.zero (s * t)) = nearest f 0 := by
    intro s t
    rw [nearest_of_isNumber isNumber_zero]
    exact ⟨trivial, rfl⟩
  rcases x with s | _ | s | ⟨s, m, e, hm⟩ <;> rcases y with t | _ | t | ⟨t, n, k, hn⟩ <;>
    try contradiction
  -- a factor that is zero makes the product zero; otherwise the mantissas are multiplied
  · rw [toRat.eq_def (.zero s), zero_mul]
    exact hzero s t
  · rw [toRat.eq_def (.zero s), zero_mul]
    exact hzero s t
  · rw [toRat.eq_def (.zero t), mul_zero]
    exact hzero s t
  · have hvalue : toRat (.finite s m e hm) * toRat (.finite t n k hn) =
        signed (s * t) (((m * n : ℕ) : ℚ) * 2 ^ (e + k)) := by
      rw [toRat, toRat, ← signed_mul, zpow_add₀ two_ne_zero]
      push_cast
      congr 1
      ring
    have hpos : (0 : ℚ) < ((m * n : ℕ) : ℚ) * 2 ^ (e + k) := by
      have : 0 < m * n := Nat.mul_pos hm hn
      positivity
    rw [hvalue]
    refine roundWithAccuracy_spec (s * t) hpos ?_ (Canonical.add_le_unitExponent hx hy)
    rw [mul_div_cancel_right₀ _ (zpow_ne_zero _ two_ne_zero)]
    exact represents_exact _

/-- A quotient lies at most one bit below the difference of the bits. -/
private theorem totalExponent_sub_le (hm : 0 < m) (hn : 0 < n) (e k : ℤ) :
    totalExponent m e - totalExponent n k ≤
      Int.log 2 (((m : ℚ) * 2 ^ e) / (n * 2 ^ k)) + 1 := by
  have hlow := Single.two_pow_log2_le hm
  have hhigh := Single.lt_two_pow_log2 hn
  have hn' : (0 : ℚ) < n := by exact_mod_cast hn
  have hpos : (0 : ℚ) < ((m : ℚ) * 2 ^ e) / (n * 2 ^ k) := by positivity
  have hle : m.log2 + e - (n.log2 + 1 + k) ≤ Int.log 2 (((m : ℚ) * 2 ^ e) / (n * 2 ^ k)) := by
    rw [← Int.zpow_le_iff_le_log one_lt_two hpos, le_div_iff₀ (by positivity)]
    calc ((2 : ℕ) : ℚ) ^ (m.log2 + e - (n.log2 + 1 + k)) * (n * 2 ^ k)
        ≤ 2 ^ (m.log2 + e - (n.log2 + 1 + k)) * (2 ^ (n.log2 + 1 : ℤ) * 2 ^ k) := by
          push_cast
          have hle : (n : ℚ) ≤ 2 ^ (n.log2 + 1 : ℤ) := by linarith
          gcongr
      _ = 2 ^ (m.log2 : ℤ) * 2 ^ e := by
          rw [← zpow_add₀ two_ne_zero, ← zpow_add₀ two_ne_zero, ← zpow_add₀ two_ne_zero]
          congr 1
          ring
      _ ≤ m * 2 ^ e := by gcongr
  rw [totalExponent, totalExponent]
  omega

/-- A quotient is rounded to the number nearest to the exact quotient. -/
theorem div_spec (hx : IsCanonical f x) (hy : IsCanonical f y) (hne : toRat y ≠ 0) :
    IsCanonical f (div f x y) ∧ toRat (div f x y) = nearest f (toRat x / toRat y) := by
  rcases x with s | _ | s | ⟨s, m, e, hm⟩ <;> rcases y with t | _ | t | ⟨t, n, k, hn⟩ <;>
    try contradiction
  -- a dividend that is zero; the divisor is not zero
  · rw [toRat.eq_def (.zero s), zero_div, nearest_of_isNumber isNumber_zero]
    exact ⟨trivial, rfl⟩
  · have hn' : (0 : ℚ) < n := by exact_mod_cast hn
    have hvalue : toRat (.finite s m e hm) / toRat (.finite t n k hn) =
        signed (s / t) (((m : ℚ) * 2 ^ e) / (n * 2 ^ k)) := by
      rw [toRat, toRat, ← signed_div]
    have hpos : (0 : ℚ) < ((m : ℚ) * 2 ^ e) / (n * 2 ^ k) := by positivity
    rw [hvalue, div]
    simp only [divCore]
    -- the dividend is shifted until the quotient has the bits that the format asks for
    generalize hunit : min (e - k)
      (f.targetExponent (totalExponent m e - totalExponent n k)) = unit
    have hle : unit ≤ e - k := hunit ▸ min_le_left ..
    refine roundWithAccuracy_spec (s / t) hpos ?_ ?_
    · have hshift : ((e - k - unit).toNat : ℤ) = e - k - unit := by omega
      have hquotient : ((m : ℚ) * 2 ^ e) / (n * 2 ^ k) / 2 ^ unit =
          ((m <<< (e - k - unit).toNat : ℕ) : ℚ) / n := by
        rw [Nat.shiftLeft_eq]
        push_cast
        rw [← zpow_natCast, hshift, zpow_sub₀ two_ne_zero, zpow_sub₀ two_ne_zero]
        field_simp
      rw [hquotient]
      exact represents_quotient _ hn
    -- the quotient then has enough bits to be rounded once
    · have hlog := totalExponent_sub_le hm hn e k
      rw [targetExponent_eq] at hunit
      rw [unitExponent, abs_of_pos hpos]
      omega

/-- The root of an integer is not taken in the rationals. Whatever lies on both sides of it, there
is a rational number between that is told apart from no other by its integer part and by the half
that it lies in. -/
private theorem represents_sqrt {lo hi : ℚ} (hhi : 0 ≤ hi) (hlow : lo ^ 2 ≤ m)
    (hhigh : m ≤ hi ^ 2) :
    ∃ x, lo ≤ x ∧ x ≤ hi ∧ Represents (.ofMantissaAndAccuracy m.sqrt
      (if m - m.sqrt * m.sqrt = 0 then .exact
        else .inexact (if m - m.sqrt * m.sqrt ≤ m.sqrt then .lt else .gt))) x := by
  have hroot : m.sqrt * m.sqrt ≤ m := m.sqrt_le
  have hnext : (m : ℚ) < (m.sqrt + 1) ^ 2 := by exact_mod_cast m.lt_succ_sqrt'
  have hle : lo ≤ hi := le_of_sq_le_sq (hlow.trans hhigh) hhi
  generalize m.sqrt = root at hroot hnext ⊢
  have hrem : m = root * root + (m - root * root) := (Nat.add_sub_cancel' hroot).symm
  generalize m - root * root = rem at hrem ⊢
  subst hrem
  push_cast at hlow hhigh hnext
  have hroot' : (0 : ℚ) ≤ root := root.cast_nonneg
  have hrem' : (0 : ℚ) ≤ rem := rem.cast_nonneg
  split
  -- the root is an integer itself
  next hzero =>
    rw [hzero, Nat.cast_zero] at hlow hhigh
    exact ⟨root, le_of_sq_le_sq (by linarith) hroot', le_of_sq_le_sq (by linarith) hhi,
      represents_exact _⟩
  next hne =>
    have hpos : (1 : ℚ) ≤ rem := by exact_mod_cast Nat.one_le_iff_ne_zero.mpr hne
    split
    next hfirst =>
      -- the root lies in the first half
      have hfirst' : (rem : ℚ) ≤ root := by exact_mod_cast hfirst
      have hlo' : lo < root + 1 / 2 := lt_of_pow_lt_pow_left₀ 2 (by linarith) (by nlinarith)
      have hhi' : root < hi := lt_of_pow_lt_pow_left₀ 2 hhi (by nlinarith)
      refine ⟨max lo (min hi (root + 1 / 4)), le_max_left .., max_le hle (min_le_left ..), ?_⟩
      have hlower : root < max lo (min hi (root + 1 / 4)) :=
        lt_max_of_lt_right (lt_min hhi' (by linarith))
      have hupper : max lo (min hi (root + 1 / 4)) < root + 1 / 2 :=
        max_lt hlo' (min_lt_of_right_lt (by linarith))
      exact ⟨hlower, hupper⟩
    -- the root lies in the second half
    next hsecond =>
      have hsecond' : (root : ℚ) + 1 ≤ rem := by exact_mod_cast Nat.lt_of_not_le hsecond
      have hlo' : lo < root + 1 := lt_of_pow_lt_pow_left₀ 2 (by linarith) (by linarith)
      have hhi' : root + 1 / 2 < hi := lt_of_pow_lt_pow_left₀ 2 hhi (by nlinarith)
      refine ⟨max lo (min hi (root + 3 / 4)), le_max_left .., max_le hle (min_le_left ..), ?_⟩
      have hlower : root + 1 / 2 < max lo (min hi (root + 3 / 4)) :=
        lt_max_of_lt_right (lt_min hhi' (by linarith))
      have hupper : max lo (min hi (root + 3 / 4)) < root + 1 :=
        max_lt hlo' (min_lt_of_right_lt (by linarith))
      exact ⟨hlower, hupper⟩

/-- Half the bits of an argument are bits of its root. -/
private theorem sq_two_pow_half_le (hm : 0 < m) (e : ℤ) :
    ((2 : ℚ) ^ ((m.log2 + e) / 2)) ^ 2 ≤ m * 2 ^ e := by
  have hlow := Single.two_pow_log2_le hm
  calc ((2 : ℚ) ^ ((m.log2 + e) / 2)) ^ 2 = 2 ^ ((m.log2 + e) / 2 * 2) := (zpow_mul ..).symm
    _ ≤ 2 ^ (m.log2 + e : ℤ) := zpow_le_zpow_right₀ one_le_two (by omega)
    _ = 2 ^ (m.log2 : ℤ) * 2 ^ e := zpow_add₀ two_ne_zero ..
    _ ≤ m * 2 ^ e := by gcongr

/-- The mantissa of which the root is taken, for a root in units of `2 ^ k`. -/
private theorem shiftLeft_eq_div (hle : 2 * k ≤ e) :
    ((m <<< (e - 2 * k).toNat : ℕ) : ℚ) = m * 2 ^ e / (2 ^ k) ^ 2 := by
  have hshift : ((e - 2 * k).toNat : ℤ) = e - 2 * k := by omega
  rw [Nat.shiftLeft_eq, eq_div_iff (by positivity)]
  push_cast
  rw [← zpow_natCast, hshift, mul_assoc, ← zpow_natCast ((2 : ℚ) ^ k), ← zpow_mul,
    ← zpow_add₀ two_ne_zero]
  congr 2
  push_cast
  ring

/-- A root is rounded between any two numbers whose squares have its argument between them. -/
theorem sqrt_spec {lo hi : ℚ} (hx : IsCanonical f x) (hhi : 0 ≤ hi)
    (hlow : lo ^ 2 ≤ toRat x) (hhigh : toRat x ≤ hi ^ 2) (hpos : 0 < toRat x) :
    IsCanonical f (sqrt f x) ∧ ∃ v, lo ≤ v ∧ v ≤ hi ∧ toRat (sqrt f x) = nearest f v := by
  rcases x with s | _ | s | ⟨_ | _, m, e, hm⟩
  -- zeros, infinities and negative numbers have no positive value
  · exact absurd hpos (lt_irrefl _)
  · exact absurd hpos (lt_irrefl _)
  · exact absurd hpos (lt_irrefl _)
  · have hneg : toRat (.finite .negative m e hm) ≤ 0 := neg_nonpos.mpr (by positivity)
    exact absurd hpos hneg.not_gt
  · rw [sqrt]
    simp only [sqrtCore]
    have hvalue : toRat (.finite .positive m e hm) = m * 2 ^ e := rfl
    rw [hvalue] at hlow hhigh
    generalize hunit : min (e.ediv 2) (f.targetExponent ((totalExponent m e + 1).ediv 2)) = unit
    have hhalf : (e.ediv 2 : ℤ) = e / 2 := rfl
    have hhalf' : ((totalExponent m e + 1).ediv 2 : ℤ) = (m.log2 + e) / 2 + 1 := by
      show (totalExponent m e + 1) / 2 = _
      rw [totalExponent]
      omega
    rw [hhalf, hhalf', targetExponent_eq] at hunit
    -- this power of two tells how many bits the root has
    set j : ℤ := (m.log2 + e) / 2
    have hpow : ((2 : ℚ) ^ j) ^ 2 ≤ m * 2 ^ e := sq_two_pow_half_le hm e
    have htwo : (0 : ℚ) < 2 ^ unit := zpow_pos two_pos unit
    have hmantissa := shiftLeft_eq_div (m := m) (e := e) (k := unit) (by omega)
    have hlow' : (max lo (2 ^ j) / 2 ^ unit) ^ 2 ≤ ((m <<< (e - 2 * unit).toNat : ℕ) : ℚ) := by
      rw [hmantissa, div_pow]
      gcongr
      rcases max_choice lo (2 ^ j) with h | h <;> rw [h]
      · exact hlow
      · exact hpow
    have hhigh' : ((m <<< (e - 2 * unit).toNat : ℕ) : ℚ) ≤ (hi / 2 ^ unit) ^ 2 := by
      rw [hmantissa, div_pow]
      gcongr
    have hhi' : 0 ≤ hi / 2 ^ unit := by positivity
    -- the rational number that stands for the root, scaled back
    obtain ⟨y, hy, hy', hrepresents⟩ := represents_sqrt hhi' hlow' hhigh'
    rw [div_le_iff₀ htwo] at hy
    rw [le_div_iff₀ htwo] at hy'
    have hj : 2 ^ j ≤ y * 2 ^ unit := (le_max_right ..).trans hy
    have hypos : 0 < y * 2 ^ unit := (zpow_pos two_pos j).trans_le hj
    have hlog : j ≤ Int.log 2 (y * 2 ^ unit) :=
      (Int.zpow_le_iff_le_log one_lt_two hypos).mp (by exact_mod_cast hj)
    obtain ⟨hcanonical, hround⟩ := roundWithAccuracy_spec (f := f) .positive (v := y * 2 ^ unit)
      (e := unit) hypos (by rwa [mul_div_cancel_right₀ _ htwo.ne'])
      (by
        rw [unitExponent, abs_of_pos hypos]
        omega)
    exact ⟨hcanonical, y * 2 ^ unit, (le_max_left ..).trans hy, hy', hround⟩

/-- A number of one format is rounded to another. -/
theorem reround_spec {g : Float.Model.Format} (hx : IsCanonical g x) :
    IsCanonical f (Scalar.reround f x) ∧ toRat (Scalar.reround f x) = nearest f (toRat x) := by
  rcases x with s | _ | s | ⟨s, m, e, hm⟩
  · exact hx.elim
  · exact hx.elim
  · exact ⟨trivial, (nearest_of_isNumber isNumber_zero).symm⟩
  · exact round_spec s hm e

/-! ### Comparison -/

/-- Of two numbers that a format keeps, one with the smaller exponent is smaller. -/
theorem Canonical.lt_of_exponent_lt (h : Canonical f m e) (h' : Canonical f n k) (hlt : e < k) :
    (m : ℚ) * 2 ^ e < n * 2 ^ k := by
  have hn : 2 ^ f.mantissaBitsWithoutImplicit ≤ n := by
    have hge := h.ge
    exact h'.normal.resolve_right (by omega)
  have hmn : m < 2 * n := by
    have hlt := h.lt
    rw [mantissaBits_eq, pow_succ] at hlt
    omega
  calc (m : ℚ) * 2 ^ e < (2 * n : ℕ) * 2 ^ e := by
        have : (m : ℚ) < (2 * n : ℕ) := by exact_mod_cast hmn
        gcongr
    _ = n * 2 ^ (e + 1) := by
        rw [zpow_add_one₀ two_ne_zero]
        push_cast
        ring
    _ ≤ n * 2 ^ k := by
        have : (2 : ℚ) ^ (e + 1) ≤ 2 ^ k := zpow_le_zpow_right₀ one_le_two (by omega)
        gcongr

/-- Two numbers of a format are compared by their exponents first and then by their mantissas. -/
private theorem compare_magnitudes (h : Canonical f m e) (h' : Canonical f n k) :
    (compare e k).then (compare m n) = cmp ((m : ℚ) * 2 ^ e) (n * 2 ^ k) := by
  rcases lt_trichotomy e k with hlt | rfl | hgt
  · rw [Int.compare_eq_lt.mpr hlt, (cmp_eq_lt_iff _ _).mpr (h.lt_of_exponent_lt h' hlt)]
    rfl
  · have htwo : (0 : ℚ) < 2 ^ e := zpow_pos two_pos e
    rw [Int.compare_eq_eq.mpr rfl, Ordering.eq_then]
    rcases lt_trichotomy m n with hlt | rfl | hgt
    · rw [Nat.compare_eq_lt.mpr hlt, eq_comm, cmp_eq_lt_iff]
      exact mul_lt_mul_of_pos_right (by exact_mod_cast hlt) htwo
    · rw [Nat.compare_eq_eq.mpr rfl, cmp_self_eq_eq]
    · rw [Nat.compare_eq_gt.mpr hgt, eq_comm, cmp_eq_gt_iff]
      exact mul_lt_mul_of_pos_right (by exact_mod_cast hgt) htwo
  · rw [Int.compare_eq_gt.mpr hgt, (cmp_eq_gt_iff _ _).mpr (h'.lt_of_exponent_lt h hgt)]
    rfl

/-- Opposite numbers are in the opposite order. -/
private theorem cmp_neg_neg (a b : ℚ) : cmp (-a) (-b) = cmp b a := by
  simp only [cmp, cmpUsing, neg_lt_neg_iff]

/-- Comparing floats is comparing the numbers that they stand for. -/
theorem compare_eq (hx : IsCanonical f x) (hy : IsCanonical f y) :
    x.compare y = some (cmp (toRat x) (toRat y)) := by
  have hpos {m : ℕ} (hm : 0 < m) (e : ℤ) : (0 : ℚ) < m * 2 ^ e := by positivity
  rcases x with s | _ | s | ⟨s, m, e, hm⟩ <;> rcases y with t | _ | t | ⟨t, n, k, hn⟩ <;>
    try contradiction
  -- numbers of different signs, or zeros, are told apart by their signs alone
  · exact congrArg some (cmp_self_eq_eq _).symm
  · cases t
    · exact congrArg some ((cmp_eq_gt_iff _ _).mpr (neg_neg_of_pos (hpos hn k))).symm
    · exact congrArg some ((cmp_eq_lt_iff _ _).mpr (hpos hn k)).symm
  · cases s
    · exact congrArg some ((cmp_eq_lt_iff _ _).mpr (neg_neg_of_pos (hpos hm e))).symm
    · exact congrArg some ((cmp_eq_gt_iff _ _).mpr (hpos hm e)).symm
  · cases s <;> cases t
    · -- of two negative numbers the one of greater magnitude is smaller
      show some ((compare e k).then (compare m n)).swap =
        some (cmp (-((m : ℚ) * 2 ^ e)) (-((n : ℚ) * 2 ^ k)))
      rw [compare_magnitudes hx hy, cmp_swap, cmp_neg_neg]
    · exact congrArg some ((cmp_eq_lt_iff _ _).mpr
        ((neg_neg_of_pos (hpos hm e)).trans (hpos hn k))).symm
    · exact congrArg some ((cmp_eq_gt_iff _ _).mpr
        ((neg_neg_of_pos (hpos hn k)).trans (hpos hm e))).symm
    · exact congrArg some (compare_magnitudes hx hy)

end DynamicRange.Binary
