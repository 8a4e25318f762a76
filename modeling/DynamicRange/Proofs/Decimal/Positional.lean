import DynamicRange.Decimal.Literal
import DynamicRange.Decimal.Shortest
import DynamicRange.Proofs.Decimal.Rounding

/-!
# Positional text reads back

The positional text of a decimal has other digits than the decimal: zeros are added before the
point or after it, and those at the end are left out. Read back it gives a decimal with another
unit, which stands for the same number.

## Key results

- `positional_splits`: the digits before and after the point stand for the decimal
- `unsigned?_positional`: the text reads back to a decimal of the same number
- `single?_positional`: and so to the same value
-/

namespace DynamicRange.Decimal

/-! ### Digits -/

section Digits

variable {ds es : List Char}

/-- Digits behind others count as they do alone, and move the others up. -/
theorem value_append : value (ds ++ es) = value ds * 10 ^ es.length + value es := by
  have happend : value (ds ++ es) = Nat.ofDigitChars 10 es (value ds) :=
    Nat.ofDigitChars_append 0
  rw [happend, Nat.ofDigitChars_eq_ofDigitChars_zero, Nat.mul_comm]
  rfl

/-- Zeros stand for zero. -/
theorem value_zeros (k : ℕ) : value (List.replicate k '0') = 0 := Nat.ofDigitChars_replicate_zero

/-- The digits of a number stand for it. -/
theorem value_digits (n : ℕ) : value (digits n) = n := Nat.ofDigitChars_ten_toDigits

/-- The digits of a number are digits. -/
theorem isDigit_of_mem_digits {n : ℕ} {c : Char} (h : c ∈ digits n) : c.isDigit = true :=
  Nat.isDigit_of_mem_toDigits (by decide) le_rfl h

/-- A number has at least one digit. -/
theorem digits_length_pos (n : ℕ) : 0 < (digits n).length := Nat.length_toDigits_pos

/-- Zeros are digits. -/
theorem isDigit_of_mem_zeros {k : ℕ} {c : Char} (h : c ∈ List.replicate k '0') :
    c.isDigit = true := by
  rw [List.eq_of_mem_replicate h]
  rfl

/-- What is left out are zeros at the end. -/
theorem exists_stripZeros_append (ds : List Char) :
    ∃ k, ds = stripZeros ds ++ List.replicate k '0' := by
  -- from the end, what is dropped is a run of zeros
  have hzero : ∀ c ∈ ds.reverse.takeWhile (· == '0'), c = '0' := fun c hc => by
    simpa using List.mem_takeWhile_imp hc
  have hzeros := List.eq_replicate_iff.mpr ⟨rfl, hzero⟩
  refine ⟨(ds.reverse.takeWhile (· == '0')).length, ?_⟩
  -- the list is what is dropped behind what is kept
  rw [← List.reverse_replicate, ← hzeros, stripZeros, ← List.reverse_append,
    List.takeWhile_append_dropWhile, List.reverse_reverse]

end Digits

/-! ### Splitting at the point -/

/-- The number of digits before the point; zero or negative for a small fraction. -/
def point (d : Decimal) : ℤ := (digits d.units).length + d.exponent

/-- Digits before and after a point that stand for a decimal. -/
structure Splits (d : Decimal) (whole fraction : List Char) : Prop where
  whole_ne_nil : whole ≠ []
  isDigit : ∀ c ∈ whole ++ fraction, c.isDigit = true
  toRat_eq : toRat ⟨value (whole ++ fraction), -fraction.length⟩ = d.toRat
  length_le : fraction.length ≤ (-d.exponent).toNat

variable {d : Decimal} {whole fraction : List Char}

/-- Zeros at the end of the fraction may be left out. -/
theorem Splits.dropZeros {k : ℕ} (h : Splits d whole (fraction ++ List.replicate k '0')) :
    Splits d whole fraction := by
  obtain ⟨hne, hdigit, hvalue, hlength⟩ := h
  rw [List.length_append, List.length_replicate] at hvalue hlength
  refine ⟨hne, fun c hc => hdigit c ?_, ?_, by omega⟩
  -- the digits that are kept are among the digits
  · rw [← List.append_assoc]
    exact List.mem_append_left _ hc
  · rw [← List.append_assoc, value_append, value_zeros, List.length_replicate] at hvalue
    -- the dropped zeros multiply the value by a power of ten, and the unit is larger by the same
    -- power
    rw [← hvalue]
    simp only [toRat]
    push_cast
    have hten : (10 : ℚ) ^ k * (10 ^ k)⁻¹ = 1 := mul_inv_cancel₀ (pow_ne_zero k (by norm_num))
    rw [neg_add, zpow_add₀ (by norm_num), zpow_neg, zpow_neg, zpow_natCast, zpow_natCast, add_zero]
    linear_combination (-(value (whole ++ fraction) : ℚ) * ((10 : ℚ) ^ fraction.length)⁻¹) * hten

/-- The digits of a decimal are split where the point stands among them. -/
theorem splits_among (h : 0 < d.point) (hexponent : d.exponent ≤ 0) :
    Splits d ((digits d.units).take d.point.toNat) ((digits d.units).drop d.point.toNat) := by
  have hpoint : d.point = (digits d.units).length + d.exponent := rfl
  have hlength := digits_length_pos d.units
  -- as many digits stand behind the point as the exponent has places
  have hplaces : ((digits d.units).drop d.point.toNat).length = (-d.exponent).toNat := by
    rw [List.length_drop]
    omega
  refine
    { whole_ne_nil := ?_
      isDigit := ?_
      toRat_eq := ?_
      length_le := hplaces.le }
  -- the point is behind at least one digit
  · rw [← List.length_pos_iff, List.length_take]
    omega
  · rw [List.take_append_drop]
    exact fun c => isDigit_of_mem_digits
  -- together the two parts are all the digits, and the fraction gives their unit
  · have hunit : -((-d.exponent).toNat : ℤ) = d.exponent := by omega
    rw [List.take_append_drop, value_digits, hplaces, hunit]

/-- A decimal that is a natural number has zeros behind its digits, and no fraction. -/
theorem splits_whole (units k : ℕ) :
    Splits ⟨units, k⟩ (digits units ++ List.replicate k '0') [] := by
  refine
    { whole_ne_nil := ?_
      isDigit := ?_
      toRat_eq := ?_
      length_le := Nat.zero_le _ }
  · rw [← List.length_pos_iff, List.length_append]
    exact Nat.add_pos_left (digits_length_pos units) _
  · intro c hc
    rw [List.append_nil] at hc
    rcases List.mem_append.mp hc with hc | hc
    · exact isDigit_of_mem_digits hc
    · exact isDigit_of_mem_zeros hc
  -- with the zeros the value is multiplied by the power of ten
  · rw [List.append_nil, value_append, value_digits, value_zeros, List.length_replicate]
    simp [toRat]

/-- The digits of a decimal with a positive number of places before the point. -/
theorem splits_of_pos (h : 0 < d.point) :
    Splits d
      ((digits d.units ++ List.replicate (d.point.toNat - (digits d.units).length) '0').take
        d.point.toNat)
      ((digits d.units).drop d.point.toNat) := by
  -- the exponent decides whether there are zeros to be put behind the digits
  rcases le_or_gt d.exponent 0 with hneg | hpos
  · have hzeros : d.point.toNat - (digits d.units).length = 0 := by
      rw [point]
      omega
    rw [hzeros, List.replicate_zero, List.append_nil]
    exact splits_among h hneg
  -- with a positive exponent all digits and the zeros are before the point
  · obtain ⟨units, exponent⟩ := d
    obtain ⟨k, rfl⟩ := Int.eq_ofNat_of_zero_le hpos.le
    have hplaces : (point ⟨units, k⟩).toNat = (digits units).length + k := by
      simp only [point]
      omega
    have hall : (digits units ++ List.replicate k '0').take ((digits units).length + k) =
        digits units ++ List.replicate k '0' := List.take_of_length_le (by simp)
    have hnone : (digits units).drop ((digits units).length + k) = [] :=
      List.drop_of_length_le (Nat.le_add_right ..)
    rw [hplaces, Nat.add_sub_cancel_left, hall, hnone]
    exact splits_whole units k

/-- The digits of a decimal below one. -/
theorem splits_of_nonpos (h : d.point ≤ 0) :
    Splits d ['0'] (List.replicate (-d.point).toNat '0' ++ digits d.units) := by
  have hpoint : d.point = (digits d.units).length + d.exponent := rfl
  -- the digit before the point is zero, and zeros fill up the places to the digits
  refine ⟨List.cons_ne_nil _ _, ?_, ?_, ?_⟩
  · intro c hc
    rcases List.mem_append.mp hc with hc | hc
    · rw [List.mem_singleton.mp hc]
      rfl
    · rcases List.mem_append.mp hc with hc | hc
      · exact isDigit_of_mem_zeros hc
      · exact isDigit_of_mem_digits hc
  -- neither the digit before the point nor the zeros behind it count
  · have hvalue : value (['0'] ++ (List.replicate (-d.point).toNat '0' ++ digits d.units)) =
        d.units := by
      have hzero : value ['0'] = 0 := rfl
      rw [value_append, hzero, value_append, value_zeros, value_digits]
      omega
    -- the digits reach down to the unit of the decimal
    have hexponent : -((List.replicate (-d.point).toNat '0' ++ digits d.units).length : ℤ) =
        d.exponent := by
      rw [List.length_append, List.length_replicate]
      omega
    rw [hvalue, hexponent]
  · rw [List.length_append, List.length_replicate]
    omega

/-- Positional text has the digits of the decimal, with a point unless there is no fraction. -/
theorem positional_splits (d : Decimal) :
    ∃ whole fraction, Splits d whole fraction ∧
      (positional d = whole ++ '.' :: fraction ∨ fraction = [] ∧ positional d = whole) := by
  have hpoint : (digits d.units).length + d.exponent = d.point := rfl
  unfold positional
  simp only [hpoint]
  by_cases hpos : 0 < d.point
  · simp only [if_pos hpos]
    have hsplits := splits_of_pos hpos
    -- the fraction loses its zeros, and the point with them if nothing is left
    obtain ⟨k, hstrip⟩ := exists_stripZeros_append ((digits d.units).drop d.point.toNat)
    rw [hstrip] at hsplits
    refine ⟨_, _, hsplits.dropZeros, ?_⟩
    split
    next hempty => exact .inr ⟨List.isEmpty_iff.mp hempty, rfl⟩
    next => exact .inl rfl
  -- below one all digits are behind the point
  · simp only [if_neg hpos]
    have hsplits := splits_of_nonpos (not_lt.mp hpos)
    obtain ⟨k, hstrip⟩ := exists_stripZeros_append (digits d.units)
    rw [hstrip, ← List.append_assoc] at hsplits
    exact ⟨_, _, hsplits.dropZeros, .inl rfl⟩

/-! ### Reading -/

/-- Reading digits stops at the first character that is not one. -/
theorem splitDigits_append {ds rest : List Char} (hdigits : ∀ c ∈ ds, c.isDigit = true)
    (hrest : ∀ c ∈ rest.head?, c.isDigit = false) : splitDigits (ds ++ rest) = (ds, rest) := by
  rw [splitDigits, List.takeWhile_append_of_pos hdigits, List.dropWhile_append_of_pos hdigits]
  cases rest with
  | nil => simp
  | cons c rest =>
    have hstop : c.isDigit = false := hrest c rfl
    simp [hstop]

/-- Digits alone are read as a natural number. -/
theorem unsigned?_whole (hne : whole ≠ []) (hdigit : ∀ c ∈ whole, c.isDigit = true) :
    unsigned? whole = some ⟨value whole, 0⟩ := by
  have hsplit := @splitDigits_append whole [] hdigit (by simp)
  rw [List.append_nil] at hsplit
  unfold unsigned?
  simp [hsplit, hne, exponent?]

/-- Digits with a point among them are read as their value in the unit of the last one. -/
theorem unsigned?_point (hne : whole ≠ []) (hdigit : ∀ c ∈ whole ++ fraction, c.isDigit = true) :
    unsigned? (whole ++ '.' :: fraction) =
      some ⟨value (whole ++ fraction), -fraction.length⟩ := by
  have hwhole := @splitDigits_append whole ('.' :: fraction)
    (fun c hc => hdigit c (List.mem_append_left _ hc)) (by simp [Char.isDigit])
  have hfraction := @splitDigits_append fraction []
    (fun c hc => hdigit c (List.mem_append_right whole hc)) (by simp)
  rw [List.append_nil] at hfraction
  unfold unsigned?
  simp [hwhole, hfraction, hne, exponent?]

/-- The text reads back to a decimal of the same number, and in units that are not smaller. -/
theorem unsigned?_positional (d : Decimal) :
    ∃ d', unsigned? (positional d) = some d' ∧ d'.toRat = d.toRat ∧
      -((-d.exponent).toNat : ℤ) ≤ d'.exponent ∧ d'.exponent ≤ 0 := by
  obtain ⟨whole, fraction, ⟨hne, hdigit, hvalue, hlength⟩, hpoint | ⟨rfl, hwhole⟩⟩ :=
    positional_splits d
  -- with a point the unit is that of the last digit of the fraction
  · refine ⟨_, hpoint ▸ unsigned?_point hne hdigit, hvalue, ?_, ?_⟩ <;> simp only <;> omega
  -- without a fraction the unit is one
  · rw [List.append_nil] at hdigit hvalue
    rw [hwhole]
    exact ⟨_, unsigned?_whole hne hdigit, hvalue, by simp only; omega, le_rfl⟩

/-- The number of digits gives the order of magnitude. -/
theorem toRat_bounds {d : Decimal} (hunits : 0 < d.units) :
    (10 : ℚ) ^ (d.point - 1) ≤ d.toRat ∧ d.toRat < 10 ^ d.point := by
  obtain ⟨units, exponent⟩ := d
  have hlength := digits_length_pos units
  have hten : (0 : ℚ) < 10 ^ exponent := zpow_pos (by norm_num) _
  -- a number of so many digits is below the power of ten and not below the one before
  have hhigh : units < 10 ^ (digits units).length :=
    (Nat.length_toDigits_le_iff (by decide) hlength).mp le_rfl
  have hlow : 10 ^ ((digits units).length - 1) ≤ units := by
    -- fewer digits would be enough otherwise
    rcases Nat.eq_zero_or_pos ((digits units).length - 1) with hone | hmore
    · rw [hone]
      exact hunits
    · rw [← not_lt, ← Nat.length_toDigits_le_iff (by decide) hmore]
      unfold digits at hlength ⊢
      omega
  have hlow' : ((10 : ℚ) ^ ((digits units).length - 1 : ℤ)) ≤ units := by
    rw [← Nat.cast_pred hlength, zpow_natCast]
    exact_mod_cast hlow
  -- both bounds are multiplied by the unit
  have hhigh' : (units : ℚ) < 10 ^ ((digits units).length : ℤ) := by
    rw [zpow_natCast]
    exact_mod_cast hhigh
  simp only [toRat, point]
  rw [add_sub_right_comm, zpow_add₀ (by norm_num), zpow_add₀ (by norm_num)]
  exact ⟨mul_le_mul_of_nonneg_right hlow' hten.le, mul_lt_mul_of_pos_right hhigh' hten⟩

/-- Numbers of moderate size are not clamped. -/
theorem toSingleClamped_eq {d : Decimal} (hunits : 0 < d.units) (hlow : 10 ^ (-60 : ℤ) ≤ d.toRat)
    (hhigh : d.toRat < 10 ^ (60 : ℤ)) : d.toSingleClamped = d.toSingle := by
  obtain ⟨hge, hlt⟩ := toRat_bounds hunits
  -- the order of magnitude is between the bounds of the number
  have hlow' := (zpow_lt_zpow_iff_right₀ (by norm_num : (1 : ℚ) < 10)).mp (hlow.trans_lt hlt)
  have hhigh' := (zpow_lt_zpow_iff_right₀ (by norm_num : (1 : ℚ) < 10)).mp (hge.trans_lt hhigh)
  have hsmall : ¬(d.units = 0 ∨ d.point < -60) := by omega
  have hlarge : ¬60 < d.point := by omega
  have hpoint : (digits d.units).length + d.exponent = d.point := rfl
  unfold toSingleClamped
  simp only [hpoint, Bool.or_eq_true, decide_eq_true_eq]
  rw [if_neg hsmall, if_neg hlarge]

/-- The characters that the text of a finite number is made of. -/
def numerals : List Char := "0123456789.-".toList

/-- The digits are among these characters. -/
theorem mem_numerals_of_isDigit {c : Char} (h : c.isDigit = true) : c ∈ numerals := by
  have hall : ∀ n < 10, Char.ofNat (48 + n) ∈ numerals := by decide
  -- the digits are the ten characters from 48 on
  simp only [Char.isDigit, Bool.and_eq_true, decide_eq_true_eq, ge_iff_le] at h
  have hlow : 48 ≤ c.toNat := UInt32.le_iff_toNat_le.mp h.1
  have hhigh : c.toNat ≤ 57 := UInt32.le_iff_toNat_le.mp h.2
  have hmem := hall (c.toNat - 48) (by omega)
  rwa [Nat.add_sub_cancel' hlow, Char.ofNat_toNat] at hmem

/-- None of these characters has another lower case. -/
theorem toLower_of_mem_numerals {c : Char} (h : c ∈ numerals) : c.toLower = c := by
  have hall : numerals.all (fun c => c.toLower == c) = true := by decide
  exact eq_of_beq (List.all_eq_true.mp hall c h)

/-- A text that begins with a digit is read as a number. -/
theorem single?_of_isDigit {c : Char} {rest : List Char} (h : c.isDigit = true) :
    single? (c :: rest) = (unsigned? (c :: rest)).map toSingleClamped ∧
      single? ('-' :: c :: rest) =
        (unsigned? (c :: rest)).map fun d => -d.toSingleClamped := by
  have hlower : Text.lower (c :: rest) = c :: Text.lower rest :=
    congrArg (· :: Text.lower rest) (toLower_of_mem_numerals (mem_numerals_of_isDigit h))
  -- a digit is not a sign
  have hsplit : splitSign (c :: rest) = (false, c :: rest) := by
    unfold splitSign
    split
    next heq => exact absurd ((List.cons.inj heq).1 ▸ h) (by decide)
    next heq => exact absurd ((List.cons.inj heq).1 ▸ h) (by decide)
    next => rfl
  -- no digit begins one of the words
  have hi : c ≠ 'i' := fun heq => absurd (heq ▸ h) (by decide)
  have hn : c ≠ 'n' := fun heq => absurd (heq ▸ h) (by decide)
  unfold single?
  constructor
  -- neither the words nor a sign apply, so the rest is read as a number
  · simp [hsplit, hlower, hi, hn, Function.comp_def]
  · simp [splitSign, hlower, hi, hn, Function.comp_def]

/-- Positional text begins with a digit. -/
theorem positional_eq_cons (d : Decimal) :
    ∃ c rest, positional d = c :: rest ∧ c.isDigit = true := by
  obtain ⟨whole, fraction, ⟨hne, hdigit, -, -⟩, htext⟩ := positional_splits d
  obtain ⟨c, rest, rfl⟩ := List.exists_cons_of_ne_nil hne
  have hc : c.isDigit = true := hdigit c List.mem_cons_self
  rcases htext with htext | ⟨-, htext⟩
  · exact ⟨c, _, htext, hc⟩
  · exact ⟨c, rest, htext, hc⟩

/-- Positional text is made of digits and a point. -/
theorem mem_numerals_of_mem_positional {c : Char} (h : c ∈ positional d) : c ∈ numerals := by
  obtain ⟨whole, fraction, ⟨-, hdigit, -, -⟩, htext⟩ := positional_splits d
  rcases htext with htext | ⟨-, htext⟩ <;> rw [htext] at h
  · rcases List.mem_append.mp h with h | h
    · exact mem_numerals_of_isDigit (hdigit c (List.mem_append_left _ h))
    · rcases List.mem_cons.mp h with rfl | h
      · decide
      · exact mem_numerals_of_isDigit (hdigit c (List.mem_append_right _ h))
  · exact mem_numerals_of_isDigit (hdigit c (List.mem_append_left _ h))

/-- Positional text reads back to the value of the decimal, and with a minus to its opposite. -/
theorem single?_positional (hunits : 0 < d.units)
    (hexponent : -256 ≤ d.exponent ∧ d.exponent ≤ 256) (hlow : 10 ^ (-60 : ℤ) ≤ d.toRat)
    (hhigh : d.toRat < 10 ^ (60 : ℤ)) :
    single? (positional d) = some d.toSingle ∧
      single? ('-' :: positional d) = some (-d.toSingle) := by
  obtain ⟨d', hread, hvalue, hge, hle⟩ := unsigned?_positional d
  -- what is read is the same positive number
  have hunits' : 0 < d'.units := by
    have hpos := toRat_pos hunits
    rw [← hvalue, toRat] at hpos
    exact_mod_cast pos_of_mul_pos_left hpos (zpow_nonneg (by norm_num) _)
  -- and it is not clamped, so that it has the same value as the decimal
  have hclamped : d'.toSingleClamped = d.toSingle := by
    rw [toSingleClamped_eq hunits' (hvalue ▸ hlow) (hvalue ▸ hhigh)]
    exact toSingle_congr hvalue hunits' (by omega) hunits hexponent
  -- the text begins with a digit and is not one of the words
  obtain ⟨c, rest, htext, hc⟩ := positional_eq_cons d
  have hsingle := @single?_of_isDigit c rest hc
  rw [← htext, hread] at hsingle
  rw [hsingle.1, hsingle.2, Option.map_some, Option.map_some, hclamped]
  exact ⟨rfl, rfl⟩

end DynamicRange.Decimal
