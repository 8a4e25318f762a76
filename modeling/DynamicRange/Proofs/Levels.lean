import DynamicRange.Levels
import DynamicRange.Proofs.Groups
import DynamicRange.Proofs.Scalar.MeanSquare
import DynamicRange.Proofs.Scalar.Error

/-!
# Levels of a signal

The root mean square of a signal lies between the least and the greatest of its magnitudes. What is
measured does so too, but for a percent, as long as the running sum of squares keeps up. In single
precision it does for half a million samples. For tens of millions it stands still, while the number
it is divided by still grows. In double precision it keeps up with any signal.

## Key results

- `withinPercent_measure`, `withinPercent_measureExactly`: the two measurements
- `measure_le`: many samples in single precision
- `rms_of_magnitudes`: the three together, over a frame of one channel
-/

namespace DynamicRange

open Binary

/-! ### Frames of one channel -/

/-- The samples of the only channel are all samples. -/
theorem Frame.channel_zero {f : Frame} (h : f.channels = 1) : f.channel 0 = f.values := by
  have hlength : f.length = f.values.length := by
    rw [Frame.length, h, Nat.div_one, Frame.values, List.length_map]
  -- groups of one sample, of which the first is the sample itself
  have hgroups : groups 1 f.values.length (f.values.flatMap fun x => [x]) =
      f.values.map fun x => [x] := groups_flatMap fun _ _ => rfl
  rw [List.flatMap_singleton'] at hgroups
  rw [Frame.channel, h, hlength, hgroups, List.filterMap_map]
  exact List.filterMap_some

namespace Levels

variable {xs : List Float32} {lo hi : ℚ}

/-! ### The two measurements -/

/-- The root mean square in single precision, by the sum of squares. -/
theorem rms_measure (hne : xs ≠ []) :
    (measure xs).rms = (sumOfSquares (-0.0) xs / Float32.ofNat xs.length).sqrt := by
  rw [measure, List.isEmpty_eq_false_iff.mpr hne]
  rfl

/-- The root mean square in double precision, by the sum of the squares of the widened samples. -/
theorem rms_measureExactly (hne : xs ≠ []) :
    (measureExactly xs).rms = Scalar.narrow
      (sumOfSquares 0 (xs.map Scalar.widen) / Float.ofNat (xs.map Scalar.widen).length).sqrt := by
  rw [measureExactly, List.isEmpty_eq_false_iff.mpr hne, sumOfSquares, List.foldl_map,
    List.length_map]
  rfl

/-- The sums start from a zero, in single precision from the negative one. -/
private theorem negative_zero : Finite (-0.0 : Float32) ∧ value (-0.0 : Float32) = 0 := ⟨rfl, rfl⟩

/-- The sum in double precision starts from the positive zero. -/
private theorem positive_zero : Finite (0 : Float) ∧ value (0 : Float) = 0 := ⟨rfl, rfl⟩

/-- Whether a level is a number that lies between two magnitudes, but for a percent. -/
structure WithinPercent (lo hi : ℚ) (level : Float32) : Prop where
  finite : Finite level
  ge : 99 / 100 * lo ≤ value level
  le : value level ≤ 101 / 100 * hi

section Magnitudes

variable (h : MagnitudesIn lo hi xs) (hne : xs ≠ [])
include h

/-- Widening keeps the magnitudes. -/
theorem magnitudesIn_map_widen : MagnitudesIn lo hi (xs.map Scalar.widen) where
  ge := h.ge
  le := h.le
  finite := List.forall_mem_map.mpr fun x hx => (widen_exact (h.finite x hx)).1
  mem := List.forall_mem_map.mpr fun x hx => by
    rw [(widen_exact (h.finite x hx)).2]
    exact h.mem x hx

include hne

/-- Half a million samples are measured well in single precision. -/
theorem withinPercent_measure (hlen : xs.length ≤ 2 ^ 19) :
    WithinPercent lo hi (measure xs).rms := by
  -- the root is off by a share that is less than a percent
  have hge := h.ge
  have hle := h.lo_le_hi hne
  obtain ⟨hcount, hcount'⟩ := ofNat_exact (hlen.trans (by decide))
  obtain ⟨hfinite, hroot_ge, hroot_le⟩ := h.root_mem (z := (measure xs).rms) isWide_binary32
    negative_zero.1 negative_zero.2 hne hlen hcount hcount' (by rw [rms_measure hne]; rfl)
  exact ⟨hfinite, by linarith, by linarith⟩

/-- What is measured in single precision falls like the root of the number of samples. -/
theorem measure_le (hlen : xs.length ≤ 2 ^ 64) {c : ℚ} (hc : 0 ≤ c) (hc' : c ≤ 1)
    (hmany : 2 ^ 25 * hi ^ 2 ≤ xs.length * c ^ 2) :
    Finite (measure xs).rms ∧ value (measure xs).rms ≤ 101 / 100 * c := by
  obtain ⟨hfinite, hle⟩ := h.root_le (z := (measure xs).rms) isWide_binary32
    negative_zero.1 negative_zero.2 hne hlen (ofNat_rounds (hlen.trans (by decide))) hc hc' hmany
    (by rw [rms_measure hne]; rfl)
  exact ⟨hfinite, by linarith⟩

/-- Every signal that fits a memory is measured well in double precision. -/
theorem withinPercent_measureExactly (hlen : xs.length ≤ 2 ^ 48) :
    WithinPercent lo hi (measureExactly xs).rms := by
  -- the root in double precision is off by a share that is less than a percent
  have hge := h.ge
  have hle := h.lo_le_hi hne
  have hone := h.le
  rw [← List.length_map Scalar.widen] at hlen
  have hne' : xs.map Scalar.widen ≠ [] := mt List.map_eq_nil_iff.mp hne
  obtain ⟨hcount, hcount'⟩ := ofNat_exact_double (hlen.trans_lt (by decide))
  obtain ⟨hroot, hroot_ge, hroot_le⟩ := (magnitudesIn_map_widen h).root_mem
    (z := (sumOfSquares 0 (xs.map Scalar.widen) /
      Float.ofNat (xs.map Scalar.widen).length).sqrt) isWide_binary64
    positive_zero.1 positive_zero.2 hne' hlen hcount hcount' rfl
  rw [rms_measureExactly hne]
  generalize (sumOfSquares 0 (xs.map Scalar.widen) /
      Float.ofNat (xs.map Scalar.widen).length).sqrt = root at hroot hroot_ge hroot_le ⊢
  -- narrowing it to single precision rounds once more
  obtain ⟨hnarrow_ge, hnarrow_le⟩ := isWide_binary32.nearest_mem (v := value root) (by linarith)
  have hbound : |value root| ≤ 2 ^ (1 : ℤ) := by
    rw [abs_of_nonneg (by linarith), zpow_one]
    linarith
  have hrounds := narrow_rounds hroot (nearest_lt_overflow hbound (by decide))
  rw [← hrounds.value_eq] at hnarrow_ge hnarrow_le
  exact ⟨hrounds.finite, by linarith, by linarith⟩

end Magnitudes

/-- The root mean square of a signal, measured over all samples and over its only channel. In single
precision it is right to a percent while the samples are few. Later it cannot follow: it is bounded
by what shrinks with the root of their number. In double precision it stays right. -/
theorem rms_of_magnitudes (hne : xs ≠ []) (hlo : 1 / 1000 ≤ lo) (hhi : hi ≤ 1)
    (h : ∀ x ∈ xs, Finite x ∧ lo ≤ |value x| ∧ |value x| ≤ hi) :
    (xs.length ≤ 2 ^ 19 → WithinPercent lo hi (measure xs).rms) ∧
    (xs.length ≤ 2 ^ 48 → ∀ f : Frame, f.channels = 1 → f.values = xs →
      WithinPercent lo hi (ofChannel f 0).rms) ∧
    (xs.length ≤ 2 ^ 64 → ∀ c, 0 ≤ c → c ≤ 1 → 2 ^ 25 * hi ^ 2 ≤ xs.length * c ^ 2 →
      Finite (measure xs).rms ∧ value (measure xs).rms ≤ 101 / 100 * c) := by
  have hmagnitudes : MagnitudesIn lo hi xs :=
    ⟨hlo, hhi, fun x hx => (h x hx).1, fun x hx => (h x hx).2⟩
  refine ⟨withinPercent_measure hmagnitudes hne, fun hlen f hf hvalues => ?_,
    fun hlen c hc hc' hmany => measure_le hmagnitudes hne hlen hc hc' hmany⟩
  rw [ofChannel, Frame.channel_zero hf, hvalues]
  exact withinPercent_measureExactly hmagnitudes hne hlen

/-! ### Two signals -/

/-- Two periods of a square wave. -/
def squareWave : Frame where
  channels := 1
  rate := 48000
  samples := [⟨0x3f000000⟩, ⟨0xbf000000⟩, ⟨0x3f000000⟩, ⟨0xbf000000⟩]
  channels_pos := Nat.one_pos
  channels_dvd := ⟨4, rfl⟩

/-- The samples of the square wave have one magnitude. -/
private theorem mem_squareWave :
    ∀ x ∈ squareWave.values, Finite x ∧ 1 / 2 ≤ |value x| ∧ |value x| ≤ 1 / 2 := by
  have hhigh : unpacked (Float32.ofBits 0x3f000000) =
      .finite .positive (2 ^ 23) (-24) (by decide) := rfl
  have hlow : unpacked (Float32.ofBits 0xbf000000) =
      .finite .negative (2 ^ 23) (-24) (by decide) := rfl
  obtain ⟨hfinite, hvalue⟩ := value_of_unpacked hhigh
  obtain ⟨hfinite', hvalue'⟩ := value_of_unpacked hlow
  have hhigh : Finite (Float32.ofBits 0x3f000000) ∧
      |value (Float32.ofBits 0x3f000000)| = 1 / 2 := by
    rw [hvalue]
    exact ⟨hfinite, by norm_num [signed]⟩
  have hlow : Finite (Float32.ofBits 0xbf000000) ∧
      |value (Float32.ofBits 0xbf000000)| = 1 / 2 := by
    rw [hvalue']
    exact ⟨hfinite', by norm_num [signed, abs_of_neg]⟩
  -- the four samples are two, each twice
  have hvalues : squareWave.values = [Float32.ofBits 0x3f000000, Float32.ofBits 0xbf000000,
      Float32.ofBits 0x3f000000, Float32.ofBits 0xbf000000] := rfl
  have hall : ∀ x ∈ squareWave.values, Finite x ∧ |value x| = 1 / 2 := by
    rw [hvalues]
    simp only [List.forall_mem_cons, List.not_mem_nil, false_implies, implies_true, and_true]
    exact ⟨hhigh, hlow, hhigh, hlow⟩
  exact fun x hx => ⟨(hall x hx).1, (hall x hx).2.ge, (hall x hx).2.le⟩

/-- The samples of a signal at full scale have the magnitude one. -/
private theorem mem_fullScale {n : ℕ} :
    ∀ x ∈ List.replicate n (1 : Float32), Finite x ∧ 1 ≤ |value x| ∧ |value x| ≤ 1 := by
  intro x hx
  rw [List.eq_of_mem_replicate hx, near_one.value_eq, abs_one]
  exact ⟨near_one.finite, le_rfl, le_rfl⟩

/-- Four samples of one magnitude, and as many at full scale as half an hour has. -/
theorem rms_of_magnitudes_constant :
    WithinPercent (1 / 2) (1 / 2) (measure squareWave.values).rms ∧
      WithinPercent (1 / 2) (1 / 2) (ofChannel squareWave 0).rms ∧
      value (measure (List.replicate (2 ^ 26) 1)).rms ≤ 101 / 100 * (3 / 4) := by
  have hne : squareWave.values ≠ [] := List.cons_ne_nil _ _
  have hne' : List.replicate (2 ^ 26) (1 : Float32) ≠ [] := by
    rw [Ne, List.replicate_eq_nil_iff]
    norm_num
  -- the square wave is short, and the other signal is not
  obtain ⟨hfew, hexact, -⟩ :=
    rms_of_magnitudes hne (by norm_num) (by norm_num) mem_squareWave
  obtain ⟨-, -, hmany⟩ := rms_of_magnitudes hne' (by norm_num) le_rfl mem_fullScale
  rw [List.length_replicate] at hmany
  exact ⟨hfew (by decide), hexact (by decide) squareWave rfl rfl,
    (hmany (by norm_num) (3 / 4) (by norm_num) (by norm_num) (by norm_num)).2⟩

/-- Not every signal is measured well in single precision: at full scale the sum stands still after
`2 ^ 24` samples. -/
theorem not_forall_withinPercent :
    ¬∀ (xs : List Float32) (lo hi : ℚ), xs ≠ [] → 1 / 1000 ≤ lo → hi ≤ 1 →
      (∀ x ∈ xs, Finite x ∧ lo ≤ |value x| ∧ |value x| ≤ hi) →
      WithinPercent lo hi (measure xs).rms := by
  intro hall
  have hne : List.replicate (2 ^ 26) (1 : Float32) ≠ [] := by
    rw [Ne, List.replicate_eq_nil_iff]
    norm_num
  -- what is measured is three quarters at most, but it would have to be nearly one
  have hmagnitudes : MagnitudesIn 1 1 (List.replicate (2 ^ 26) (1 : Float32)) :=
    ⟨by norm_num, le_rfl, fun x hx => (mem_fullScale x hx).1, fun x hx => (mem_fullScale x hx).2⟩
  have hge := (hall _ 1 1 hne (by norm_num) le_rfl mem_fullScale).ge
  have hle := (measure_le hmagnitudes hne (by rw [List.length_replicate]; norm_num)
    (c := 3 / 4) (by norm_num) (by norm_num) (by rw [List.length_replicate]; norm_num)).2
  linarith

end Levels

end DynamicRange
