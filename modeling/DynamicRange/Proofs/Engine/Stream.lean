import DynamicRange.Engine
import DynamicRange.Proofs.Groups

/-!
# A stream through the engine

The detector samples alone decide the factors and the state that the engine ends in; the main
samples are then multiplied one by one. In this form a stream can be cut anywhere: the engine takes
up the second part where the first has left it.

## Key results

- `process_eq`: `process` by the factors of its detector
- `processInPlace_eq_process`: a signal that is its own detector
- `output_add`, `after_groups_add`: a stream cut in two
- `output_append`: samples past the end of the span do not matter
-/

namespace DynamicRange.Engine

/-- The engine after a list of detector samples. -/
def after (e : Engine) (detector : List (List Sample)) : Engine :=
  detector.foldl (fun e d => (e.step d).2) e

/-- The factor for each of a list of detector samples. -/
def factors (e : Engine) : List (List Sample) → List Float32
  | [] => []
  | d :: ds => (e.step d).1 :: (e.step d).2.factors ds

/-- The first `n` samples of `main`, each multiplied by the factor of the detector sample beside
it. -/
def output (e : Engine) (main : List Sample) (mainChannels : Nat) (detector : List Sample)
    (detectorChannels n : Nat) : List Sample :=
  (List.zipWith scale (e.factors (groups detectorChannels n detector))
    (groups mainChannels n main)).flatten

/-! ### Factors and states along a list -/

/-- No samples leave the engine as it is. -/
@[simp] theorem after_nil (e : Engine) : e.after [] = e := rfl

/-- The first sample is taken in first. -/
@[simp] theorem after_cons (e : Engine) (d : List Sample) (ds : List (List Sample)) :
    e.after (d :: ds) = (e.step d).2.after ds := rfl

/-- A list of samples is taken in part after part. -/
theorem after_append (e : Engine) (ds ds' : List (List Sample)) :
    e.after (ds ++ ds') = (e.after ds).after ds' :=
  List.foldl_append ..

/-- There is one factor for each detector sample. -/
@[simp] theorem length_factors (e : Engine) (ds : List (List Sample)) :
    (e.factors ds).length = ds.length := by
  induction ds generalizing e with
  | nil => rfl
  | cons d ds ih => simp [factors, ih]

/-- The factors of a list of samples, part after part. -/
theorem factors_append (e : Engine) (ds ds' : List (List Sample)) :
    e.factors (ds ++ ds') = e.factors ds ++ (e.after ds).factors ds' := by
  induction ds generalizing e with
  | nil => rfl
  | cons d ds ih => simp [factors, ih]

/-! ### The loops in closed form -/

/-- The loop over pairs, from samples already done. -/
private theorem foldl_advance (e : Engine) (done mains ds : List (List Sample))
    (h : mains.length = ds.length) :
    (mains.zip ds).foldl advance (done, e) =
      ((List.zipWith scale (e.factors ds) mains).reverse ++ done, e.after ds) := by
  induction ds generalizing e done mains with
  | nil => simp [factors]
  | cons d ds ih =>
    cases mains with
    | nil => simp at h
    -- one pair after another: the sample is multiplied, and the engine goes on
    | cons m ms =>
      have hlen : ms.length = ds.length := by simpa using h
      simp [advance, factors, ih _ _ _ hlen]

/-- `process` multiplies by the factors of the detector and leaves later samples. -/
theorem process_eq (e : Engine) (main : List Sample) (mc : Nat) (detector : List Sample)
    (dc n : Nat) :
    e.process main mc detector dc n =
      (e.output main mc detector dc n ++ main.drop (n * mc), e.after (groups dc n detector)) := by
  have hlen : (groups mc n main).length = (groups dc n detector).length := by simp
  simp only [process, foldl_advance e [] _ _ hlen, output, List.append_nil, List.reverse_reverse]

/-- With channels and enough samples the checks pass. -/
theorem process?_eq {main : List Sample} {mc : Nat} {detector : List Sample} {dc n : Nat}
    (hmc : 0 < mc) (hdc : 0 < dc) (hmain : n * mc ≤ main.length)
    (hdetector : n * dc ≤ detector.length) (e : Engine) :
    e.process? main mc detector dc n = some
      (e.output main mc detector dc n ++ main.drop (n * mc), e.after (groups dc n detector)) := by
  rw [process?, if_pos ⟨hmc, hdc, hmain, hdetector⟩, process_eq]

/-- The loop in place, as the loop over pairs of a sample with itself. -/
private theorem foldl_advanceInPlace (state : List (List Sample) × Engine)
    (signal : List (List Sample)) :
    signal.foldl advanceInPlace state = (signal.zip signal).foldl advance state := by
  induction signal generalizing state with
  | nil => rfl
  | cons s ss ih => exact ih _

/-- A signal that is its own detector: every sample is read before it is multiplied. -/
theorem processInPlace_eq_process (e : Engine) (signal : List Sample) (channels n : Nat) :
    e.processInPlace signal channels n = e.process signal channels signal channels n := by
  simp only [processInPlace, process, foldl_advanceInPlace]

/-! ### Cutting a stream -/

/-- The state after `n + k` samples is that of the `k` samples past the `n`-th. -/
theorem after_groups_add (e : Engine) (detector : List Sample) (dc n k : Nat) :
    e.after (groups dc (n + k) detector) =
      (e.after (groups dc n detector)).after (groups dc k (detector.drop (n * dc))) := by
  rw [groups_add, after_append]

/-- The output of `n + k` samples is that of `n`, then that of the next `k` from the state in
between. -/
theorem output_add (e : Engine) (main : List Sample) (mc : Nat) (detector : List Sample)
    (dc n k : Nat) :
    e.output main mc detector dc (n + k) =
      e.output main mc detector dc n ++
        (e.after (groups dc n detector)).output (main.drop (n * mc)) mc
          (detector.drop (n * dc)) dc k := by
  have hlen : (e.factors (groups dc n detector)).length = (groups mc n main).length := by simp
  simp only [output, groups_add, factors_append]
  rw [List.zipWith_append hlen, List.flatten_append]

/-- A span of no samples has no output. -/
@[simp] theorem output_zero (e : Engine) (main : List Sample) (mc : Nat) (detector : List Sample)
    (dc : Nat) : e.output main mc detector dc 0 = [] := rfl

/-- Samples of either stream past the span do not matter. -/
theorem output_append {main : List Sample} {mc : Nat} {detector : List Sample} {dc n : Nat}
    (hmain : n * mc ≤ main.length) (hdetector : n * dc ≤ detector.length) (e : Engine)
    (main' detector' : List Sample) :
    e.output (main ++ main') mc (detector ++ detector') dc n = e.output main mc detector dc n := by
  rw [output, output, groups_append hmain, groups_append hdetector]

/-- Samples of either stream past the span may be cut off. -/
theorem output_take (e : Engine) (main : List Sample) (mc : Nat) (detector : List Sample)
    (dc n : Nat) :
    e.output (main.take (n * mc)) mc (detector.take (n * dc)) dc n =
      e.output main mc detector dc n := by
  simp only [output, groups_take]

/-- Multiplying keeps every sample in its place. -/
private theorem length_flatten_zipWith_scale (xs : List Float32) (mains : List (List Sample))
    (h : xs.length = mains.length) :
    (List.zipWith scale xs mains).flatten.length = mains.flatten.length := by
  induction mains generalizing xs with
  | nil => simp
  | cons m ms ih =>
    -- multiplying by a factor keeps the channels of a sample
    cases xs with
    | nil => simp at h
    | cons x xs => simp [scale, ih xs (by simpa using h)]

/-- The output has the length of the span. -/
theorem length_output {main : List Sample} {mc n : Nat} (h : n * mc ≤ main.length) (e : Engine)
    (detector : List Sample) (dc : Nat) :
    (e.output main mc detector dc n).length = n * mc := by
  rw [output, length_flatten_zipWith_scale _ _ (by simp), flatten_groups, List.length_take,
    Nat.min_eq_left h]

end DynamicRange.Engine
