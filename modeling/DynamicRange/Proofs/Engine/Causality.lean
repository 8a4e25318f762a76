import DynamicRange.InPlace
import DynamicRange.Proofs.Engine.Stream

/-!
# What an output sample depends on

The factor of a main sample is that of the engine after the detector samples up to the one beside
it. So nothing of the main stream and no later detector sample has a part in it: runs whose
detectors agree on their first samples have the same factors there, whatever they multiply. The
channels of the two streams are cut at different strides, and the statements here are about samples,
that is about all channels at once.

## Main definitions

* `Engine.factorAt`: the factor beside a detector sample

## Key results

- `Engine.factors_groups`: the factors of a stream, sample by sample
- `Engine.sampleAt_process`: the output, sample by sample
- `Engine.factorAt_congr`, `Engine.after_groups_congr`: detectors that agree up to a sample
- `Engine.process_causal`: one run by itself, and beside any other run of the same engine
-/

namespace DynamicRange

open Engine.InPlace (sampleAt)

/-! ### Samples of a buffer -/

section Samples

variable {k n : Nat} {xs ys : List Sample}

/-- The one sample behind the first `n` is the sample at `n`. -/
theorem groups_one_drop (k n : Nat) (xs : List Sample) :
    groups k 1 (xs.drop (n * k)) = [sampleAt k xs n] := by
  rw [groups_succ, groups_zero, sampleAt]

/-- The first `n` samples are the samples at the places below `n`. -/
theorem groups_eq_map_sampleAt (k n : Nat) (xs : List Sample) :
    groups k n xs = (List.range n).map (sampleAt k xs) := by
  induction n with
  | zero => rfl
  | succ n ih =>
    rw [groups_add, ih, groups_one_drop, List.range_succ, List.map_append]
    rfl

/-- Buffers that agree on their first `n` samples have the same first samples. -/
theorem groups_congr (h : xs.take (n * k) = ys.take (n * k)) {m : Nat} (hm : m ≤ n) :
    groups k m xs = groups k m ys := by
  have htake (zs : List Sample) : (zs.take (n * k)).take (m * k) = zs.take (m * k) := by
    rw [List.take_take, Nat.min_eq_left (Nat.mul_le_mul_right k hm)]
  rw [← groups_take k m xs, ← groups_take k m ys, ← htake xs, ← htake ys, h]

/-- Buffers that agree on their first `n` samples have the same sample at every place below `n`. -/
theorem sampleAt_congr (h : xs.take (n * k) = ys.take (n * k)) {i : Nat} (hi : i < n) :
    sampleAt k xs i = sampleAt k ys i := by
  have hgroups := groups_congr h (Nat.succ_le_of_lt hi)
  rw [groups_eq_map_sampleAt, groups_eq_map_sampleAt, List.map_inj_left] at hgroups
  exact hgroups i (List.mem_range.mpr (Nat.lt_succ_self i))

/-- Buffers with the same first samples agree on them. -/
theorem take_congr (h : ∀ i < n, sampleAt k xs i = sampleAt k ys i) :
    xs.take (n * k) = ys.take (n * k) := by
  rw [← flatten_groups, ← flatten_groups, groups_eq_map_sampleAt, groups_eq_map_sampleAt,
    List.map_congr_left fun i hi => h i (List.mem_range.mp hi)]

end Samples

namespace Engine

/-- The factor beside detector sample `i`: that of the engine after the samples before it. -/
def factorAt (e : Engine) (detector : List Sample) (dc i : Nat) : Float32 :=
  ((e.after (groups dc i detector)).step (sampleAt dc detector i)).1

/-! ### One run -/

/-- The factors of a run are those at the places below `n`. -/
theorem factors_groups (e : Engine) (detector : List Sample) (dc n : Nat) :
    e.factors (groups dc n detector) = (List.range n).map (e.factorAt detector dc) := by
  induction n with
  | zero => rfl
  | succ n ih =>
    rw [groups_add, factors_append, ih, groups_one_drop, List.range_succ, List.map_append]
    rfl

variable {main detector : List Sample} {mc dc n : Nat}

/-- The samples of the output are those of the main stream, each multiplied by its factor. -/
theorem groups_process (hmain : n * mc ≤ main.length) (e : Engine) (detector : List Sample)
    (dc : Nat) :
    groups mc n (e.process main mc detector dc n).1 =
      (List.range n).map fun i => scale (e.factorAt detector dc i) (sampleAt mc main i) := by
  have hscaled : List.zipWith scale (e.factors (groups dc n detector)) (groups mc n main) =
      (List.range n).map fun i => scale (e.factorAt detector dc i) (sampleAt mc main i) := by
    rw [factors_groups, groups_eq_map_sampleAt, List.zipWith_map, List.zipWith_self]
  -- a multiplied sample has the channels of the main stream, so cutting at its stride finds it
  have hchannels : ∀ i ∈ List.range n,
      (scale (e.factorAt detector dc i) (sampleAt mc main i)).length = mc := by
    intro i hi
    have hsample : sampleAt mc main i ∈ groups mc n main := by
      rw [groups_eq_map_sampleAt]
      exact List.mem_map_of_mem hi
    rw [scale, List.length_map, length_of_mem_groups hmain hsample]
  have hgroups := groups_flatMap hchannels
  rw [List.length_range] at hgroups
  have hlength := length_output hmain e detector dc
  -- what comes out begins with the span, cut into samples of the main stream's stride
  rw [process_eq, groups_append (Nat.le_of_eq hlength.symm), output, hscaled, ← List.flatMap_def,
    hgroups]

/-- The sample at a place of the output is that of the main stream, multiplied by its factor. -/
theorem sampleAt_process (hmain : n * mc ≤ main.length) (e : Engine) (detector : List Sample)
    (dc : Nat) {i : Nat} (hi : i < n) :
    sampleAt mc (e.process main mc detector dc n).1 i =
      scale (e.factorAt detector dc i) (sampleAt mc main i) := by
  have hgroups := groups_process hmain e detector dc
  rw [groups_eq_map_sampleAt, List.map_inj_left] at hgroups
  exact hgroups i (List.mem_range.mpr hi)

/-- Slots past the span stay. -/
theorem getElem?_process (hmain : n * mc ≤ main.length) (e : Engine) (detector : List Sample)
    (dc : Nat) {p : Nat} (hp : n * mc ≤ p) :
    (e.process main mc detector dc n).1[p]? = main[p]? := by
  have hlength := length_output hmain e detector dc
  rw [process_eq, List.getElem?_append_right (Nat.le_trans (Nat.le_of_eq hlength) hp), hlength,
    List.getElem?_drop, Nat.add_sub_cancel' hp]

/-- A run keeps the length of the buffer. -/
theorem length_process (hmain : n * mc ≤ main.length) (e : Engine) (detector : List Sample)
    (dc : Nat) : (e.process main mc detector dc n).1.length = main.length := by
  rw [process_eq, List.length_append, length_output hmain, List.length_drop,
    Nat.add_sub_cancel' hmain]

/-! ### Two runs -/

section Congr

variable {detector' : List Sample} (h : detector'.take (n * dc) = detector.take (n * dc))
include h

/-- Detectors that agree on the span lead to the same state. -/
theorem after_groups_congr (e : Engine) :
    e.after (groups dc n detector') = e.after (groups dc n detector) := by
  rw [groups_congr h (Nat.le_refl n)]

/-- Detectors that agree on the first `n` samples have the same factors at the places below `n`. -/
theorem factorAt_congr (e : Engine) {i : Nat} (hi : i < n) :
    e.factorAt detector' dc i = e.factorAt detector dc i := by
  rw [factorAt, factorAt, groups_congr h (Nat.le_of_lt hi), sampleAt_congr h hi]

end Congr

/-- A run comes to its end if its checks pass, and then the detector alone decides the state. -/
theorem process?_eq_some_iff {out : List Sample} {e e' : Engine} :
    e.process? main mc detector dc n = some (out, e') ↔
      (0 < mc ∧ 0 < dc ∧ n * mc ≤ main.length ∧ n * dc ≤ detector.length) ∧
        (e.process main mc detector dc n).1 = out ∧ e.after (groups dc n detector) = e' := by
  have hstate : (e.process main mc detector dc n).2 = e.after (groups dc n detector) :=
    congrArg Prod.snd (process_eq ..)
  rw [process?, Option.ite_none_right_eq_some, Option.some_inj, Prod.ext_iff, hstate]

/-- With channels and enough samples on both sides a run comes to its end. It multiplies all
channels of a sample by one factor, which is read off the detector up to that sample, and leaves
what lies past the span. Beside any other run of the engine, over whatever main stream: as far as
the detectors agree the factors are the same, and so is the engine in the end if that is as far as
both runs go; and where the main streams agree as well, at one sample or up to it, so do the
outputs. -/
theorem process_causal (e : Engine) {main detector : List Sample} {mc dc n : Nat} (hmc : 0 < mc)
    (hdc : 0 < dc) (hmain : n * mc ≤ main.length) (hdetector : n * dc ≤ detector.length) :
    ∃ out, e.process? main mc detector dc n = some (out, e.after (groups dc n detector)) ∧
      out.length = main.length ∧
      (∀ i < n, sampleAt mc out i = scale (e.factorAt detector dc i) (sampleAt mc main i)) ∧
      (∀ p, n * mc ≤ p → out[p]? = main[p]?) ∧
      ∀ main' mc' detector' n' out' e',
        e.process? main' mc' detector' dc n' = some (out', e') →
        ∀ k, k ≤ n → k ≤ n' → detector'.take (k * dc) = detector.take (k * dc) →
          (∀ i < k, e.factorAt detector' dc i = e.factorAt detector dc i) ∧
          (k = n → k = n' → e' = e.after (groups dc n detector)) ∧
          (mc' = mc → ∀ i < k, sampleAt mc main' i = sampleAt mc main i →
            sampleAt mc out' i = sampleAt mc out i) ∧
          (mc' = mc → main'.take (k * mc) = main.take (k * mc) →
            out'.take (k * mc) = out.take (k * mc)) := by
  refine ⟨(e.process main mc detector dc n).1,
    process?_eq_some_iff.mpr ⟨⟨hmc, hdc, hmain, hdetector⟩, rfl, rfl⟩,
    length_process hmain e detector dc, fun i => sampleAt_process hmain e detector dc,
    fun p => getElem?_process hmain e detector dc, ?_⟩
  intro main' mc' detector' n' out' e' hrun' k hk hk' hagree
  -- the other run has come to its end, so its checks have passed and it too is known by sample
  obtain ⟨⟨-, -, hmain', -⟩, rfl, rfl⟩ := process?_eq_some_iff.mp hrun'
  -- the factors up to `k` are read off what the detectors have in common
  have hfactors : ∀ i < k, e.factorAt detector' dc i = e.factorAt detector dc i :=
    fun i => factorAt_congr hagree e
  have hlocal : mc' = mc → ∀ i < k, sampleAt mc main' i = sampleAt mc main i →
      sampleAt mc (e.process main' mc' detector' dc n').1 i =
        sampleAt mc (e.process main mc detector dc n).1 i := by
    rintro rfl i hi hmains
    rw [sampleAt_process hmain' e detector' dc (Nat.lt_of_lt_of_le hi hk'),
      sampleAt_process hmain e detector dc (Nat.lt_of_lt_of_le hi hk), hfactors i hi, hmains]
  refine ⟨hfactors, ?_, hlocal, fun hmc' hmains => ?_⟩
  · rintro rfl rfl
    exact after_groups_congr hagree e
  · exact take_congr fun i hi => hlocal hmc' i hi (sampleAt_congr hmains hi)

/-- Two stereo streams with the same first sample, beside mono detectors with the same first sample:
the outputs have the same first sample, and what lies past the span of the first run stays. -/
theorem process_causal_stereo_mono :
    ∃ e, Engine.ofSettings {} 48000 = .ok e ∧ ∃ out out' e₁ e₂,
      e.process? [⟨0x3f800000⟩, ⟨0xbf000000⟩, ⟨0x3e800000⟩] 2 [⟨0x3f000000⟩] 1 1 =
        some (out, e₁) ∧
      e.process? [⟨0x3f800000⟩, ⟨0xbf000000⟩, ⟨0⟩, ⟨0⟩] 2 [⟨0x3f000000⟩, ⟨0x3f800000⟩] 1 2 =
        some (out', e₂) ∧
      out[2]? = some ⟨0x3e800000⟩ ∧ out'.take 2 = out.take 2 := by
  -- each run fits its buffers, and both have the sample that they share
  refine ⟨_, rfl, ?_⟩
  have hmain : 1 * 2 ≤ ([⟨0x3f800000⟩, ⟨0xbf000000⟩, ⟨0x3e800000⟩] : List Sample).length := by
    decide
  have hmain' : 2 * 2 ≤ ([⟨0x3f800000⟩, ⟨0xbf000000⟩, ⟨0⟩, ⟨0⟩] : List Sample).length := by
    decide
  have hdetector : 1 * 1 ≤ ([⟨0x3f000000⟩] : List Sample).length := by decide
  have hdetector' : 2 * 1 ≤ ([⟨0x3f000000⟩, ⟨0x3f800000⟩] : List Sample).length := by decide
  obtain ⟨out, hrun, -, -, hrest, hother⟩ :=
    process_causal _ (by decide) (by decide) hmain hdetector
  obtain ⟨out', hrun', -⟩ := process_causal _ (by decide) (by decide) hmain' hdetector'
  obtain ⟨-, -, -, hsame⟩ := hother _ _ _ _ _ _ hrun' 1 (by decide) (by decide) rfl
  exact ⟨out, out', _, _, hrun, hrun', hrest 2 (by decide), hsame rfl rfl⟩

end Engine

end DynamicRange
