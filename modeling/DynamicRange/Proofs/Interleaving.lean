import DynamicRange.Interleaving
import DynamicRange.Proofs.Groups
import DynamicRange.Proofs.Peak

/-!
# The channels of an interleaved list

The walk for a channel of `k` visits the slots `i * k + channel` and no others. So the walks for
all channels visit every slot once, what one of them gives does not depend on the slots of the
others, and the samples that they visit are those of the channels cut out of the list. A peak is a
least upper bound, so the largest of the channels is that of the whole list.

## Key results

- `getElem?_everyNth`: what a walk visits
- `perm_flatMap_visited`: the walks together
- `Levels.ofInterleaved_eq`: the walk measures the channel
- `Levels.channels_exact`: all channels of a frame
-/

namespace DynamicRange

section Walk

variable {α : Type}

/-- What a walk gives at place `i`, when it passes over `wait` elements first. -/
private theorem getElem?_everyNthAfter {k : Nat} (hk : 0 < k) (wait : Nat) (xs : List α) (i : Nat) :
    (everyNthAfter k wait xs)[i]? = xs[i * k + wait]? := by
  induction xs generalizing wait i with
  | nil => rfl
  -- on the elements: one that is waited for is passed over, and else it is taken
  | cons x xs ih =>
    cases wait with
    | zero =>
      cases i with
      | zero => rw [Nat.zero_mul]; rfl
      | succ i =>
        -- one element is taken and the next `k - 1` are passed over
        have hnext : (i + 1) * k + 0 = i * k + (k - 1) + 1 := by
          rw [Nat.succ_mul]
          omega
        rw [everyNthAfter, List.getElem?_cons_succ, ih, hnext, List.getElem?_cons_succ]
    | succ wait => rw [everyNthAfter, ih, ← Nat.add_assoc, List.getElem?_cons_succ]

/-- The walk from a slot on visits the slots at multiples of the distance from it. -/
theorem getElem?_everyNth {k : Nat} (hk : 0 < k) (xs : List α) (start i : Nat) :
    (everyNth k (xs.drop start))[i]? = xs[i * k + start]? := by
  rw [everyNth, getElem?_everyNthAfter hk, List.getElem?_drop, Nat.add_zero, Nat.add_comm]

/-- To pass over some elements is to start after them. -/
theorem everyNthAfter_eq {k : Nat} (hk : 0 < k) (wait : Nat) (xs : List α) :
    everyNthAfter k wait xs = everyNth k (xs.drop wait) :=
  List.ext_getElem? fun i => by rw [getElem?_everyNthAfter hk, getElem?_everyNth hk]

/-- The walk takes the first element and passes over the next. -/
theorem everyNth_cons (k : Nat) (x : α) (xs : List α) :
    everyNth k (x :: xs) = x :: everyNthAfter k (k - 1) xs :=
  rfl

/-- A walk over a mapped list gives the mapped elements. -/
theorem everyNth_map {β : Type} {k : Nat} (hk : 0 < k) (f : α → β) (xs : List α) (start : Nat) :
    everyNth k ((xs.map f).drop start) = (everyNth k (xs.drop start)).map f :=
  List.ext_getElem? fun i => by
    rw [getElem?_everyNth hk, List.getElem?_map, List.getElem?_map, getElem?_everyNth hk]

/-- What a walk gives does not depend on the slots that it passes over. -/
theorem everyNth_congr {k : Nat} (hk : 0 < k) {xs ys : List α} {start : Nat}
    (h : ∀ i, xs[i * k + start]? = ys[i * k + start]?) :
    everyNth k (xs.drop start) = everyNth k (ys.drop start) :=
  List.ext_getElem? fun i => by rw [getElem?_everyNth hk, getElem?_everyNth hk, h]

/-- The walk over the slots themselves. -/
theorem everyNth_range {k start : Nat} (hstart : start < k) (n : Nat) :
    everyNth k ((List.range (n * k)).drop start) = (List.range n).map (· * k + start) := by
  refine List.ext_getElem? fun i => ?_
  rw [getElem?_everyNth (Nat.zero_lt_of_lt hstart), List.getElem?_map]
  -- past the slots of the last sample nothing is visited
  by_cases hi : i < n
  · have hslot : i * k + start < n * k := by
      have hle := Nat.mul_le_mul_right k (Nat.succ_le_of_lt hi)
      rw [Nat.succ_mul] at hle
      omega
    rw [List.getElem?_range hslot, List.getElem?_range hi]
    rfl
  · have hslot : n * k ≤ i * k + start :=
      (Nat.mul_le_mul_right k (Nat.le_of_not_lt hi)).trans (Nat.le_add_right ..)
    rw [List.getElem?_eq_none (by rwa [List.length_range]),
      List.getElem?_eq_none (by rw [List.length_range]; omega)]
    rfl

example : everyNth 3 ((List.range 6).drop 1) = [1, 4] := rfl

/-- The walk takes one element of each group. -/
theorem filterMap_groups {k start : Nat} (hstart : start < k) {n : Nat} {xs : List α}
    (h : xs.length = n * k) :
    (groups k n xs).filterMap (·[start]?) = everyNth k (xs.drop start) := by
  have hk := Nat.zero_lt_of_lt hstart
  -- the groups and the walk both give their first element and go on
  induction n generalizing xs with
  | zero =>
    obtain rfl : xs = [] := List.length_eq_zero_iff.mp (h.trans (Nat.zero_mul k))
    rw [List.drop_nil]
    rfl
  | succ n ih =>
    rw [Nat.succ_mul] at h
    have hlt : start < xs.length := by omega
    have hfirst : (xs.take k)[start]? = some xs[start] := by
      rw [List.getElem?_take_of_lt hstart, List.getElem?_eq_getElem hlt]
    -- the walk goes on `k` slots further, which is where it starts in the other groups
    have hrest : (xs.drop (start + 1)).drop (k - 1) = (xs.drop k).drop start := by
      rw [List.drop_drop, List.drop_drop]
      congr 1
      omega
    rw [groups_succ, List.filterMap_cons_some (f := (·[start]?)) hfirst, ih (by rw [List.length_drop]; omega),
      List.drop_eq_getElem_cons hlt, everyNth_cons, everyNthAfter_eq hk, hrest]

/-- Every slot is on the walk of its remainder. -/
theorem mem_iff_exists_everyNth {k : Nat} (hk : 0 < k) {xs : List α} {x : α} :
    x ∈ xs ↔ ∃ start < k, x ∈ everyNth k (xs.drop start) := by
  constructor
  · -- slot `p` is number `p / k` on the walk from `p % k`
    intro hx
    obtain ⟨p, hp⟩ := List.mem_iff_getElem?.mp hx
    refine ⟨p % k, Nat.mod_lt p hk, List.mem_iff_getElem?.mpr ⟨p / k, ?_⟩⟩
    rw [getElem?_everyNth hk, Nat.div_add_mod', hp]
  · rintro ⟨start, -, hx⟩
    obtain ⟨i, hi⟩ := List.mem_iff_getElem?.mp hx
    rw [getElem?_everyNth hk] at hi
    exact List.mem_of_getElem? hi

end Walk

/-! ### Slots -/

namespace Frame

/-- The slots that the walk for a channel visits. -/
def visited (f : Frame) (channel : Nat) : List Nat :=
  everyNth f.channels ((List.range f.samples.length).drop channel)

variable {f : Frame} {channel : Nat}

/-- The slots of a channel, one for each sample. -/
theorem visited_eq (h : channel < f.channels) :
    f.visited channel = (List.range f.length).map (· * f.channels + channel) := by
  rw [visited, ← f.length_mul_channels, everyNth_range h]

/-- A slot is visited for a channel if the channel is its remainder. -/
theorem mem_visited_iff (h : channel < f.channels) {p : Nat} :
    p ∈ f.visited channel ↔ p < f.samples.length ∧ p % f.channels = channel := by
  rw [visited_eq h, List.mem_map]
  constructor
  · rintro ⟨i, hi, rfl⟩
    have hle := Nat.mul_le_mul_right f.channels (Nat.succ_le_of_lt (List.mem_range.mp hi))
    rw [Nat.succ_mul, f.length_mul_channels] at hle
    exact ⟨by omega, by rw [Nat.mul_add_mod', Nat.mod_eq_of_lt h]⟩
  · rintro ⟨hp, rfl⟩
    refine ⟨p / f.channels, List.mem_range.mpr ?_, Nat.div_add_mod' ..⟩
    rw [Nat.div_lt_iff_lt_mul f.channels_pos, f.length_mul_channels]
    exact hp

/-- The walks for all channels visit every slot once. -/
theorem perm_flatMap_visited (f : Frame) :
    ((List.range f.channels).flatMap f.visited).Perm (List.range f.samples.length) := by
  -- no slot is visited twice, neither for one channel nor for two
  have hnodup : ((List.range f.channels).flatMap f.visited).Nodup := by
    refine List.nodup_flatMap.mpr ⟨fun channel h => ?_, ?_⟩
    · rw [visited_eq (List.mem_range.mp h)]
      refine List.nodup_range.map fun i j hij => ?_
      exact Nat.eq_of_mul_eq_mul_right f.channels_pos (Nat.add_right_cancel hij)
    · -- a slot tells its channel by the remainder
      refine List.nodup_range.pairwise_of_forall_ne fun c hc d hd hne p hp hp' => hne ?_
      rw [← ((mem_visited_iff (List.mem_range.mp hc)).mp hp).2,
        ← ((mem_visited_iff (List.mem_range.mp hd)).mp hp').2]
  -- and the slots that are visited are all there are
  refine (List.perm_ext_iff_of_nodup hnodup List.nodup_range).mpr fun p => ?_
  rw [List.mem_flatMap, List.mem_range]
  constructor
  · rintro ⟨channel, hchannel, hp⟩
    exact ((mem_visited_iff (List.mem_range.mp hchannel)).mp hp).1
  · intro hp
    have hchannel := Nat.mod_lt p f.channels_pos
    exact ⟨_, List.mem_range.mpr hchannel, (mem_visited_iff hchannel).mpr ⟨hp, rfl⟩⟩

/-- The walk gives what stands in the slots that it visits. -/
theorem map_visited (f : Frame) (channel : Nat) :
    (f.visited channel).map (f.values[·]?) =
      (everyNth f.channels (f.values.drop channel)).map some := by
  have hlength : f.samples.length = f.values.length := (List.length_map _).symm
  have hslots : (List.range f.samples.length).map (f.values[·]?) = f.values.map some := by
    -- the values of all slots in turn are the list itself
    rw [hlength]
    refine List.ext_getElem (by simp) fun p hp _ => ?_
    rw [List.length_map, List.length_range] at hp
    rw [List.getElem_map, List.getElem_map, List.getElem_range, List.getElem?_eq_getElem hp]
  rw [visited, ← everyNth_map f.channels_pos, ← everyNth_map f.channels_pos, hslots]

/-- The number of values of a frame. -/
theorem length_values (f : Frame) : f.values.length = f.length * f.channels := by
  rw [values, List.length_map, f.length_mul_channels]

end Frame

namespace Levels

open Binary

/-- A tally that is folded over a list is three folds, one for each part. -/
theorem foldl_add (xs : List Float32) (t : Tally) :
    xs.foldl Tally.add t =
      { peak := xs.foldl (fun peak x => Scalar.larger peak x.abs) t.peak
        sum := xs.foldl (fun sum x => sum + Scalar.widen x * Scalar.widen x) t.sum
        count := t.count + xs.length } := by
  induction xs generalizing t with
  | nil => rfl
  | cons x xs ih =>
    rw [List.foldl_cons, ih, List.length_cons, Nat.add_comm xs.length, ← Nat.add_assoc]
    rfl

/-- The levels of a whole tally are those that are measured at once. -/
theorem levels_foldl_add (xs : List Float32) :
    (xs.foldl Tally.add {}).levels = measureExactly xs := by
  rw [foldl_add, Tally.levels, measureExactly, Nat.zero_add, peakOf]
  simp only [List.length_eq_zero_iff, List.isEmpty_iff]

/-- The walk measures the channel. -/
theorem ofInterleaved_eq {f : Frame} {channel : Nat} (h : channel < f.channels) :
    ofInterleaved f.values f.channels channel = ofChannel f channel := by
  rw [ofInterleaved, levels_foldl_add, ofChannel, Frame.channel,
    filterMap_groups h f.length_values]

/-- The peak that is measured, also of no samples at all. -/
theorem peak_measure (xs : List Float32) : (measure xs).peak = peakOf xs := by
  rw [measure]
  split
  next h =>
    rw [List.isEmpty_iff.mp h]
    rfl
  next => rfl

/-- The peak of a channel is that of the elements on its walk. -/
theorem peak_ofInterleaved (xs : List Float32) (channels channel : Nat) :
    (ofInterleaved xs channels channel).peak = peakOf (everyNth channels (xs.drop channel)) := by
  rw [ofInterleaved, levels_foldl_add]
  rfl

/-- The peak of a list is that of one of its channels, and those of the others are not above. -/
theorem exists_peak_ofInterleaved (xs : List Float32) {k : Nat} (hk : 0 < k) :
    (∃ channel < k, (ofInterleaved xs k channel).peak = (measure xs).peak) ∧
      ∀ channel < k, (ofInterleaved xs k channel).peak ≤ (measure xs).peak := by
  simp only [peak_ofInterleaved, peak_measure]
  have hsubset (channel : ℕ) (h : channel < k) : everyNth k (xs.drop channel) ⊆ xs :=
    fun x hx => (mem_iff_exists_everyNth hk).mpr ⟨channel, h, hx⟩
  refine ⟨?_, fun channel h =>
    peakOf_le_iff.mpr (magnitude_peakOf_le_of_subset (hsubset channel h))⟩
  -- the channel whose peak is largest bounds the samples of all others
  obtain ⟨loudest, hloudest, hmax⟩ := (Finset.range k).exists_max_image
    (fun channel => magnitude (peakOf (everyNth k (xs.drop channel)))) ⟨0, Finset.mem_range.mpr hk⟩
  have hloudest := Finset.mem_range.mp hloudest
  refine ⟨loudest, hloudest, peakOf_eq_iff.mpr
    ((magnitude_peakOf_le_of_subset (hsubset loudest hloudest)).antisymm ?_)⟩
  refine (magnitude_peakOf_le_iff xs _).mpr
    ⟨((magnitude_peakOf_le_iff _ _).mp le_rfl).1, fun x hx => ?_⟩
  obtain ⟨channel, h, hx⟩ := (mem_iff_exists_everyNth hk).mp hx
  exact (magnitude_le_peakOf hx).trans (hmax channel (Finset.mem_range.mpr h))

/-- The levels of the channels of a frame, measured in walks through the interleaved list. The walk
for a channel visits as many slots as the frame is long, which are those at multiples of the number
of channels from the first; together the walks visit every slot once; and each gives what stands in
its slots, and measures the channel. A change in the slots of one channel does not change the levels
of another. The peak of the whole list is the largest of the peaks of the channels, bit for bit, and
whether or not there are NaNs among the samples. -/
theorem channels_exact (f : Frame) :
    (∀ channel < f.channels,
      f.visited channel = (List.range f.length).map (· * f.channels + channel)) ∧
    ((List.range f.channels).flatMap f.visited).Perm (List.range f.samples.length) ∧
    (∀ channel < f.channels,
      (f.visited channel).map (f.values[·]?) =
          (everyNth f.channels (f.values.drop channel)).map some ∧
        ofInterleaved f.values f.channels channel = ofChannel f channel) ∧
    (∀ (g : Frame) (changed : Nat), g.channels = f.channels →
      (∀ p, p % f.channels ≠ changed → g.values[p]? = f.values[p]?) →
      ∀ channel < f.channels, channel ≠ changed →
        ofInterleaved g.values g.channels channel = ofInterleaved f.values f.channels channel) ∧
    (∃ channel < f.channels,
      (ofInterleaved f.values f.channels channel).peak = (measure f.values).peak) ∧
    ∀ channel < f.channels,
      (ofInterleaved f.values f.channels channel).peak ≤ (measure f.values).peak := by
  refine ⟨fun channel h => Frame.visited_eq h, f.perm_flatMap_visited,
    fun channel h => ⟨f.map_visited channel, ofInterleaved_eq h⟩,
    -- the slots of another channel are not on the walk of this one
    fun g changed hchannels hsame channel h hne => ?_,
    exists_peak_ofInterleaved f.values f.channels_pos⟩
  have hslots (i : Nat) : g.values[i * f.channels + channel]? =
      f.values[i * f.channels + channel]? := by
    refine hsame _ ?_
    rwa [Nat.mul_add_mod', Nat.mod_eq_of_lt h]
  rw [ofInterleaved, ofInterleaved, hchannels, everyNth_congr f.channels_pos hslots]

end Levels

end DynamicRange
