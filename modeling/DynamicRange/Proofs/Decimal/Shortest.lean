import DynamicRange.Proofs.Decimal.Positional

/-!
# The text of a number reads back

The decimal that is written for a number is searched on ever finer grids and tested by reading it,
so what is left to show is that the search stays within bounds, and that the exact decimal, taken
when the search fails, is read as the number.

## Key results

- `shortest_cases`: where the decimal comes from
- `shortest_spec`: it is read as the number
- `single?_text`, `mem_numerals_of_mem_text`: so is the text, which has no character but digits, a
  point and a minus
-/

namespace DynamicRange.Decimal

open Single

/-! ### Magnitudes -/

namespace Magnitude

/-- The number that a magnitude stands for. -/
def toRat (v : Magnitude) : ℚ := v.num / v.den

/-- The magnitude of a mantissa and a binary exponent is the number these stand for. -/
theorem toRat_ofBinary (mantissa : ℕ) (exponent : ℤ) :
    (ofBinary mantissa exponent).toRat = mantissa * 2 ^ exponent := by
  simp only [toRat, ofBinary, Nat.shiftLeft_eq, one_mul]
  push_cast
  -- a negative exponent goes below the line, any other one above it
  rw [← zpow_natCast, ← zpow_natCast, mul_div_assoc, ← zpow_sub₀ two_ne_zero]
  congr 2
  omega

/-- Scaling a magnitude divides it by a power of ten. -/
theorem toRat_scale (v : Magnitude) (k : ℤ) : (v.scale k).toRat = v.toRat / 10 ^ k := by
  simp only [toRat, scale, Nat.pow_eq]
  push_cast
  -- the two sides of the fraction hold the two parts of the power, one of which is 1
  rw [mul_div_mul_comm, ← zpow_natCast, ← zpow_natCast, ← zpow_sub₀ (by norm_num),
    div_eq_mul_inv _ ((10 : ℚ) ^ k), ← zpow_neg]
  congr 2
  omega

end Magnitude

variable {v : Magnitude} {d : Decimal} {mantissa : ℕ} {exponent : ℤ}

/-- The integer part of a magnitude in the given unit is not above it. -/
theorem floor_scale_le (v : Magnitude) (k : ℤ) :
    (((v.scale k).num / (v.scale k).den : ℕ) : ℚ) * 10 ^ k ≤ v.toRat := by
  have hfloor : (((v.scale k).num / (v.scale k).den : ℕ) : ℚ) ≤ (v.scale k).toRat :=
    Nat.cast_div_le
  rwa [Magnitude.toRat_scale, le_div_iff₀ (zpow_pos (by norm_num) _)] at hfloor

/-- Neighbours on a grid have its unit, and lie at most one of them above the magnitude. -/
theorem of_mem_neighbours {k : ℤ} (h : d ∈ neighbours v k) :
    d.exponent = k ∧ d.toRat ≤ v.toRat + 10 ^ k := by
  have hfloor := floor_scale_le v k
  have hunit : (0 : ℚ) < 10 ^ k := zpow_pos (by norm_num) _
  -- the neighbours are the integer part and the one above it, the nearer one first
  have hcases : d = ⟨(v.scale k).num / (v.scale k).den, k⟩ ∨
      d = ⟨(v.scale k).num / (v.scale k).den + 1, k⟩ := by
    unfold neighbours at h
    simp only at h
    split at h <;> simp only [List.mem_cons, List.not_mem_nil, or_false] at h
    · exact h
    · exact h.symm
  rcases hcases with rfl | rfl
  -- the integer part is not above the magnitude
  · refine ⟨rfl, ?_⟩
    simp only [toRat]
    linarith
  -- the one above it is at most a unit higher
  · refine ⟨rfl, ?_⟩
    simp only [toRat]
    push_cast
    linarith

/-- The power of ten that the search starts from is in the range it is looked for in. -/
theorem leadingPower_bounds (v : Magnitude) : -46 ≤ leadingPower v ∧ leadingPower v ≤ 44 := by
  unfold leadingPower
  simp only
  generalize hfind : List.find? _ _ = found
  -- found in the list of powers, or the default
  cases found with
  | none => simp
  | some k =>
    obtain ⟨i, hi, rfl⟩ := List.mem_map.mp (List.mem_of_find?_eq_some hfind)
    have hlt := List.mem_range.mp hi
    simp only [Option.getD_some]
    omega

/-- The decimal comes from one of the grids, where it was tested, or it is the exact one. -/
theorem shortest_cases (x : Float32) (v : Magnitude) :
    (∃ k, -55 ≤ k ∧ k ≤ 43 ∧ shortest x v ∈ neighbours v k ∧
      ((shortest x v).toSingle == x) = true) ∨
    shortest x v = ⟨(v.scale (-149)).num / (v.scale (-149)).den, -149⟩ := by
  have hpower := leadingPower_bounds v
  unfold shortest
  simp only
  generalize hfind : List.find? _ _ = found
  cases found with
  -- no grid has a decimal that reads back
  | none => exact .inr rfl
  | some d =>
    -- the decimal that is found lies on one of the nine grids that are tried
    obtain ⟨k, hk, hd⟩ := List.mem_flatMap.mp (List.mem_of_find?_eq_some hfind)
    obtain ⟨n, hn, rfl⟩ := List.mem_map.mp hk
    have hlt := List.mem_range.mp hn
    -- what a search finds has passed its test
    have htested : (d.toSingle == x) = true := by simpa using List.find?_some hfind
    exact .inl ⟨_, by omega, by omega, hd, htested⟩

/-! ### Numbers of the format -/

/-- The size of the numbers of the format. -/
theorem canonical_bounds (h : Canonical mantissa exponent) :
    (2 : ℚ) ^ (-149 : ℤ) ≤ mantissa * 2 ^ exponent ∧
      (mantissa : ℚ) * 2 ^ exponent ≤ 2 ^ (128 : ℤ) := by
  have hone : (1 : ℚ) ≤ mantissa := by exact_mod_cast h.mantissa_pos
  have hmany : (mantissa : ℚ) ≤ 2 ^ 24 := by exact_mod_cast h.mantissa_lt.le
  have hlow : (2 : ℚ) ^ (-149 : ℤ) ≤ 2 ^ exponent :=
    zpow_le_zpow_right₀ one_le_two h.exponent_ge
  have hhigh : (2 : ℚ) ^ exponent ≤ 2 ^ (104 : ℤ) :=
    zpow_le_zpow_right₀ one_le_two h.exponent_le
  have hunit : (0 : ℚ) < 2 ^ exponent := zpow_pos two_pos _
  -- the least number has a mantissa of one, the greatest a full one
  constructor
  · calc (2 : ℚ) ^ (-149 : ℤ) ≤ 1 * 2 ^ exponent := by rw [one_mul]; exact hlow
      _ ≤ mantissa * 2 ^ exponent := mul_le_mul_of_nonneg_right hone hunit.le
  · calc (mantissa : ℚ) * 2 ^ exponent ≤ 2 ^ 24 * 2 ^ (104 : ℤ) :=
          mul_le_mul hmany hhigh hunit.le (by norm_num)
      _ = 2 ^ (128 : ℤ) := by norm_num

/-- A number of the format is a natural number of units of `10 ^ -149`. -/
theorem toRat_exact (h : -149 ≤ exponent) :
    toRat ⟨((Magnitude.ofBinary mantissa exponent).scale (-149)).num /
      ((Magnitude.ofBinary mantissa exponent).scale (-149)).den, -149⟩ =
      mantissa * 2 ^ exponent := by
  have hdvd : ((Magnitude.ofBinary mantissa exponent).scale (-149)).den ∣
      ((Magnitude.ofBinary mantissa exponent).scale (-149)).num := by
    simp only [Magnitude.scale, Magnitude.ofBinary, Nat.pow_eq, Nat.shiftLeft_eq, one_mul]
    -- the power of ten holds every power of two that can be below the line
    have hten : 2 ^ (-exponent).toNat ∣ 10 ^ 149 :=
      (Nat.pow_dvd_pow 2 (show (-exponent).toNat ≤ 149 by omega)).trans
        (pow_dvd_pow_of_dvd (by decide : 2 ∣ 10) 149)
    exact (mul_one (2 ^ (-exponent).toNat)).symm ▸ hten.mul_left _
  -- the denominator is a power of two or 1, and not zero
  have hden : (((Magnitude.ofBinary mantissa exponent).scale (-149)).den : ℚ) ≠ 0 := by
    simp only [Magnitude.scale, Magnitude.ofBinary, Nat.pow_eq, Nat.shiftLeft_eq, one_mul]
    positivity
  have hscale := Magnitude.toRat_scale (.ofBinary mantissa exponent) (-149)
  rw [Magnitude.toRat] at hscale
  rw [toRat]
  simp only
  -- so the division is exact, and the fraction is the number
  rw [Nat.cast_div hdvd hden, hscale, Magnitude.toRat_ofBinary,
    div_mul_cancel₀ _ (zpow_ne_zero _ (by norm_num))]

/-- No units are read as zero. -/
theorem toSingle_of_units_eq_zero (h : d.units = 0) : d.toSingle = ⟨.pack (.zero .positive)⟩ := by
  unfold toSingle Float32.Model.ofScientific Float.Model.UnpackedFloat.ofScientific
  rw [dif_pos h]

/-- What the reading of a decimal asks for. -/
structure ReadsAs (d : Decimal) (x : Float32) : Prop where
  units_pos : 0 < d.units
  exponent_bounds : -256 ≤ d.exponent ∧ d.exponent ≤ 256
  low : 10 ^ (-60 : ℤ) ≤ d.toRat
  high : d.toRat < 10 ^ (60 : ℤ)
  toSingle_eq : d.toSingle = x

/-- The shortest decimal of a positive number is read as the number. -/
theorem shortest_spec {x : Float32} {hpos : 0 < mantissa}
    (h : x.toModel.unpack = .finite .positive mantissa exponent hpos) :
    ReadsAs (shortest x (.ofBinary mantissa exponent)) x := by
  -- a number of the format is between its least and its greatest one
  have hcanonical : Canonical mantissa exponent := canonical_of_unpack h
  obtain ⟨hlow, hhigh⟩ := canonical_bounds hcanonical
  -- both ends are well inside the decimals that are read
  have hleast : (10 : ℚ) ^ (-60 : ℤ) ≤ 2 ^ (-149 : ℤ) := by norm_num
  have hgreatest : (2 : ℚ) ^ (128 : ℤ) + 10 ^ (43 : ℤ) < 10 ^ (60 : ℤ) := by norm_num
  have hsomething : (0 : ℚ) < 10 ^ (43 : ℤ) := by norm_num
  rcases shortest_cases x (.ofBinary mantissa exponent) with ⟨k, hk, hk', hmem, hreads⟩ | hexact
  · -- a decimal that was tested by reading it
    generalize shortest x (.ofBinary mantissa exponent) = d at hmem hreads
    obtain ⟨rfl, hle⟩ := of_mem_neighbours hmem
    have heq := eq_of_beq_positive h hreads
    -- without units it would be read as zero, which is not the number
    have hunits : 0 < d.units := by
      refine Nat.pos_of_ne_zero fun hzero => ?_
      rw [← heq, toSingle_of_units_eq_zero hzero] at h
      exact nomatch h
    -- at least one unit, on a grid that is not too fine
    have hone : (1 : ℚ) ≤ d.units := by exact_mod_cast hunits
    have hunit : (10 : ℚ) ^ (-60 : ℤ) ≤ 10 ^ d.exponent :=
      zpow_le_zpow_right₀ (by norm_num) (by omega)
    -- and at most one unit above the number, on a grid that is not too coarse
    have hunit' : (10 : ℚ) ^ d.exponent ≤ 10 ^ (43 : ℤ) :=
      zpow_le_zpow_right₀ (by norm_num) hk'
    rw [Magnitude.toRat_ofBinary] at hle
    refine ⟨hunits, ⟨by omega, by omega⟩, ?_, by linarith, heq⟩
    calc (10 : ℚ) ^ (-60 : ℤ) ≤ 1 * 10 ^ d.exponent := by rw [one_mul]; exact hunit
      _ ≤ d.toRat := mul_le_mul_of_nonneg_right hone (zpow_nonneg (by norm_num) _)
  · -- the exact decimal is rounded to the number because it is of the format
    have hvalue := @toRat_exact mantissa exponent hcanonical.exponent_ge
    rw [← hexact] at hvalue
    -- the exact decimal is in units of `10 ^ -149`
    have hexponent : (shortest x (.ofBinary mantissa exponent)).exponent = -149 := by rw [hexact]
    generalize shortest x (.ofBinary mantissa exponent) = d at hvalue hexponent
    -- its value is that of the number, which is not zero
    have hunits : 0 < d.units := by
      have hnonzero : (0 : ℚ) < d.toRat := by
        rw [hvalue]
        exact (zpow_pos two_pos _).trans_le hlow
      rw [toRat] at hnonzero
      exact_mod_cast pos_of_mul_pos_left hnonzero (zpow_nonneg (by norm_num) _)
    -- a value of the format is rounded to the number that has it
    refine ⟨hunits, by omega, by linarith, by linarith, eq_of_unpack_eq ?_⟩
    rw [toSingle_of_canonical hcanonical hvalue hunits (by omega), h]
    exact unpack_pack_finite hcanonical

/-! ### Text -/

/-- The text of a number, by its kind. -/
theorem text_cases {x : Float32} (h : x.isFinite = true) :
    (∃ d, ReadsAs d x.abs ∧
      (x = x.abs ∧ (text x).toList = positional d ∨
        x = -x.abs ∧ (text x).toList = '-' :: positional d)) ∨
    x = 0 ∧ (text x).toList = ['0'] ∨ x = -0 ∧ (text x).toList = ['-', '0'] := by
  have hfinite : x.toModel.unpack.isFinite = true := h
  rcases hparts : x.toModel.unpack with s | _ | s | ⟨s, mantissa, exponent, hpos⟩
  -- infinities and NaN are not finite
  · rw [hparts] at hfinite
    exact nomatch hfinite
  · rw [hparts] at hfinite
    exact nomatch hfinite
  -- a zero is written with its sign
  · refine .inr ?_
    unfold text
    rw [hparts]
    cases s with
    | positive => exact .inl ⟨eq_of_unpack_eq (hparts.trans rfl), String.toList_append⟩
    | negative => exact .inr ⟨eq_of_unpack_eq (hparts.trans rfl), String.toList_append⟩
  -- any other number is written as the decimal of its size, with a sign if it is negative
  · refine .inl ⟨_, shortest_spec (unpack_abs hparts), ?_⟩
    unfold text
    rw [hparts]
    cases s with
    | positive => exact .inl ⟨eq_abs hparts, by simp⟩
    | negative => exact .inr ⟨eq_neg_abs hparts, by simp⟩

/-- The text of a finite number reads back to the number. -/
theorem single?_text {x : Float32} (h : x.isFinite = true) :
    single? (text x).toList = some x := by
  rcases text_cases h with ⟨d, hreads, htext⟩ | ⟨rfl, htext⟩ | ⟨rfl, htext⟩
  -- the decimal of the size is read back, with the sign and without
  · have hsingle := single?_positional hreads.units_pos hreads.exponent_bounds hreads.low
      hreads.high
    rw [hreads.toSingle_eq] at hsingle
    rcases htext with ⟨hx, htext⟩ | ⟨hx, htext⟩ <;> rw [htext, hx]
    · exact hsingle.1
    · exact hsingle.2
  -- a zero is read back with its sign
  · rw [htext]
    rfl
  · rw [htext]
    rfl

/-- The text of a finite number is made of digits, the point and the minus sign. -/
theorem mem_numerals_of_mem_text {x : Float32} (h : x.isFinite = true) {c : Char}
    (hc : c ∈ (text x).toList) : c ∈ numerals := by
  rcases text_cases h with ⟨d, -, ⟨-, htext⟩ | ⟨-, htext⟩⟩ | ⟨-, htext⟩ | ⟨-, htext⟩ <;>
    rw [htext] at hc
  · exact mem_numerals_of_mem_positional hc
  · rcases List.mem_cons.mp hc with rfl | hc
    · decide
    · exact mem_numerals_of_mem_positional hc
  · rw [List.mem_singleton.mp hc]
    decide
  · rcases List.mem_cons.mp hc with rfl | hc
    · decide
    · rw [List.mem_singleton.mp hc]
      decide

end DynamicRange.Decimal
