import DynamicRange.Levels

/-!
# One channel of an interleaved list

The samples of a channel stand in an interleaved list at a distance of as many slots as there are
channels. They can be measured in one walk through the list, which passes over the other channels
and keeps the peak, the sum of the squares and the number of samples.

## Main definitions

* `everyNth`: the walk
* `Levels.Tally`, `Levels.ofInterleaved`: the levels of one channel
-/

namespace DynamicRange

/-- Every `k`-th element of a list, once as many as `wait` have been passed over. -/
def everyNthAfter {α : Type} (k : Nat) : Nat → List α → List α
  | _, [] => []
  | 0, x :: xs => x :: everyNthAfter k (k - 1) xs
  | wait + 1, _ :: xs => everyNthAfter k wait xs

/-- Every `k`-th element of a list, from the first one on. -/
def everyNth {α : Type} (k : Nat) (xs : List α) : List α := everyNthAfter k 0 xs

namespace Levels

/-- What is known of the samples so far. -/
structure Tally where
  peak : Float32 := 0
  /-- The sum of the squares. -/
  sum : Float := 0
  count : Nat := 0

/-- Takes in a sample. -/
def Tally.add (t : Tally) (x : Float32) : Tally where
  peak := Scalar.larger t.peak x.abs
  sum := t.sum + Scalar.widen x * Scalar.widen x
  count := t.count + 1

/-- The levels of the samples taken in. -/
def Tally.levels (t : Tally) : Levels where
  rms := if t.count = 0 then 0 else Scalar.narrow (t.sum / .ofNat t.count).sqrt
  peak := t.peak

/-- The levels of one of the channels of an interleaved list. -/
def ofInterleaved (xs : List Float32) (channels channel : Nat) : Levels :=
  ((everyNth channels (xs.drop channel)).foldl Tally.add {}).levels

end Levels

end DynamicRange
