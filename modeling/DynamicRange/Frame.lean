import DynamicRange.Sample

/-!
# Frames

A frame is a block of interleaved samples with its channel count and sample rate. Lengths and
positions are counted in samples per channel.

## Main definitions

* `Format`: channel count and sample rate
* `Frame`: the samples; there is at least one channel, and every sample has all channels
* `Frame.ofInterleaved?`, `Frame.ofSamples`, `Frame.silence?`: construction
* `Frame.take`, `Frame.drop`, `Frame.splitAt?`, `Frame.append?`, `Frame.join`: cutting and joining
-/

namespace DynamicRange

/-- Channel count and sample rate of a stream. -/
structure Format where
  /-- The number of interleaved channels. -/
  channels : Nat
  /-- Samples per second. -/
  rate : Nat
deriving DecidableEq, Repr

/-- A format in words. -/
def Format.text (f : Format) : String := s!"{f.channels} ch @ {f.rate} Hz"

/-- A block of interleaved samples. -/
@[ext]
structure Frame where
  channels : Nat
  rate : Nat
  /-- All channels of sample 0, then of sample 1, and so on. -/
  samples : List Sample
  channels_pos : 0 < channels
  /-- No sample lacks a channel. -/
  channels_dvd : channels ∣ samples.length

namespace Frame

/-- The frame of an interleaved list, unless there are no channels or the list is ragged. -/
def ofInterleaved? (samples : List Sample) (channels rate : Nat) : Option Frame :=
  if h : 0 < channels ∧ channels ∣ samples.length then
    some ⟨channels, rate, samples, h.1, h.2⟩
  else none

/-- The frame of an interleaved list, without the last sample if some of its channels lack. -/
def ofSamples (samples : List Sample) (channels rate : Nat) (h : 0 < channels) : Frame where
  channels := channels
  rate := rate
  samples := samples.take (samples.length - samples.length % channels)
  channels_pos := h
  channels_dvd := by
    rw [List.length_take, Nat.min_eq_left (Nat.sub_le _ _)]
    exact Nat.dvd_sub_mod samples.length

/-- The format of a frame. -/
def format (f : Frame) : Format := ⟨f.channels, f.rate⟩

/-- The numbers of the interleaved list. -/
def values (f : Frame) : List Float32 := f.samples.map Sample.value

/-- The number of samples per channel. -/
def length (f : Frame) : Nat := f.samples.length / f.channels

/-- Whether the frame has no samples. -/
def isEmpty (f : Frame) : Bool := f.samples.isEmpty

/-- The frame without samples that has the format of `f`. -/
def emptied (f : Frame) : Frame := { f with samples := [], channels_dvd := ⟨0, rfl⟩ }

/-- Silence of a format. There is none without channels, nor beyond the largest buffer that can be
addressed. -/
def silence? (format : Format) (length : Nat) : Option Frame :=
  if length * format.channels < 1 <<< 61 then
    ofInterleaved? (List.replicate (length * format.channels) .silence) format.channels format.rate
  else none

/-- Silence in the format of a given frame. -/
def silenceLike (f : Frame) (length : Nat) : Frame where
  channels := f.channels
  rate := f.rate
  samples := List.replicate (length * f.channels) .silence
  channels_pos := f.channels_pos
  channels_dvd := by rw [List.length_replicate]; exact Nat.dvd_mul_left _ _

/-- All channels of sample `i`. -/
def sample? (f : Frame) (i : Nat) : Option (List Sample) :=
  if i < f.length then some ((f.samples.drop (i * f.channels)).take f.channels) else none

/-- Writes one slot of the interleaved list. -/
def setSlot? (f : Frame) (slot : Nat) (x : Sample) : Option Frame :=
  if slot < f.samples.length then
    some { f with samples := f.samples.set slot x, channels_dvd := by simpa using f.channels_dvd }
  else none

/-- The frame with other samples. A list of another length is refused: the frame stays. -/
def replace (f : Frame) (samples : List Sample) : Frame :=
  if h : samples.length = f.samples.length then
    { f with samples, channels_dvd := h ▸ f.channels_dvd }
  else f

/-- The first `n` samples, or all if there are fewer. -/
def take (f : Frame) (n : Nat) : Frame :=
  { f with
    samples := f.samples.take (n * f.channels)
    channels_dvd := by
      rw [List.length_take]
      rcases Nat.le_total (n * f.channels) f.samples.length with h | h
      · rw [Nat.min_eq_left h]; exact Nat.dvd_mul_left _ _
      · rw [Nat.min_eq_right h]; exact f.channels_dvd }

/-- The samples from the `n`-th on. -/
def drop (f : Frame) (n : Nat) : Frame :=
  { f with
    samples := f.samples.drop (n * f.channels)
    channels_dvd := by
      rw [List.length_drop]
      exact Nat.dvd_sub f.channels_dvd (Nat.dvd_mul_left _ _) }

/-- The samples before and from position `n`, which must not lie past the end. -/
def splitAt? (f : Frame) (n : Nat) : Option (Frame × Frame) :=
  if n ≤ f.length then some (f.take n, f.drop n) else none

/-- The samples of `f`, then those of `g`, which must have the same format. -/
def append? (f g : Frame) : Option Frame :=
  if h : f.format = g.format then
    some
      { f with
        samples := f.samples ++ g.samples
        channels_dvd := by
          rw [List.length_append]
          have hc : f.channels = g.channels := congrArg Format.channels h
          exact Nat.dvd_add f.channels_dvd (hc ▸ g.channels_dvd) }
  else none

/-- The frames of a list joined, the last one first in the list, in the format of `f`. Frames of
another format are left out. -/
def join (f : Frame) (reversed : List Frame) : Frame :=
  reversed.foldl (fun joined g => (g.append? joined).getD joined) f.emptied

/-- The first samples have the format of the whole. -/
@[simp]
theorem format_take (f : Frame) (n : Nat) : (f.take n).format = f.format := rfl

/-- The last samples have the format of the whole. -/
@[simp]
theorem format_drop (f : Frame) (n : Nat) : (f.drop n).format = f.format := rfl

/-- A frame has a slot for each sample of each channel. -/
theorem length_mul_channels (f : Frame) : f.length * f.channels = f.samples.length :=
  Nat.div_mul_cancel f.channels_dvd

/-- No more samples are taken than there are. -/
@[simp]
theorem length_take (f : Frame) (n : Nat) : (f.take n).length = min n f.length := by
  -- the slots that are taken are those of whole samples
  have samples_length : (f.take n).samples.length = min n f.length * f.channels := by
    rw [← Nat.mul_min_mul_right, f.length_mul_channels, take, List.length_take]
  exact Nat.div_eq_of_eq_mul_left f.channels_pos samples_length

/-- What is left is what was not dropped. -/
@[simp]
theorem length_drop (f : Frame) (n : Nat) : (f.drop n).length = f.length - n := by
  have samples_length : (f.drop n).samples.length = (f.length - n) * f.channels := by
    rw [Nat.sub_mul, f.length_mul_channels, drop, List.length_drop]
  exact Nat.div_eq_of_eq_mul_left f.channels_pos samples_length

/-- The two parts make up the whole. -/
@[simp]
theorem samples_take_append_drop (f : Frame) (n : Nat) :
    (f.take n).samples ++ (f.drop n).samples = f.samples :=
  List.take_append_drop ..

/-- Equality of samples as numbers: a NaN differs from itself, and zeros of either sign agree. -/
instance : BEq Frame where
  beq f g := f.values == g.values && f.channels == g.channels && f.rate == g.rate

end Frame

end DynamicRange
