import DynamicRange.Frame

/-!
# Laws of frames

A frame is its format and its interleaved samples, so cutting and joining are `take`, `drop` and
`++` on the samples. The assertions of `splitAt?` and `append?` are the only way to get no result.

## Key results

- `splitAt?_eq_none_iff`, `append?_eq_some_iff`, `sample?_eq_none_iff`: when there is a result
- `append?_take_drop`, `splitAt?_of_append?`: cutting and joining undo each other
- `append?_assoc`, `splitAt?_splitAt?`, `sample?_of_append?`: the laws of lists, for whole samples
- `samples_join`: joining frames of one format loses nothing
-/

namespace DynamicRange.Frame

/-- Frames of one format with the same samples are the same. -/
theorem eq_of_format_of_samples {f g : Frame} (hformat : f.format = g.format)
    (hsamples : f.samples = g.samples) : f = g := by
  have hc : f.channels = g.channels := congrArg Format.channels hformat
  have hr : f.rate = g.rate := congrArg Format.rate hformat
  exact Frame.ext hc hr hsamples

/-- A frame is that of its own samples. -/
theorem ofInterleaved?_samples (f : Frame) : ofInterleaved? f.samples f.channels f.rate = some f :=
  dif_pos ⟨f.channels_pos, f.channels_dvd⟩

/-- A frame is not empty exactly if it has samples. -/
@[simp] theorem isEmpty_eq_false_iff (f : Frame) : f.isEmpty = false ↔ f.samples ≠ [] := by
  simp [isEmpty]

/-- A frame is empty exactly if it has no samples. -/
@[simp] theorem isEmpty_eq_true_iff (f : Frame) : f.isEmpty = true ↔ f.samples = [] := by
  simp [isEmpty]

/-- A frame without samples has length zero, and the other way round: no sample lacks a channel. -/
theorem length_eq_zero_iff (f : Frame) : f.length = 0 ↔ f.samples = [] := by
  have hlen := f.length_mul_channels
  constructor
  · intro h
    rw [h, Nat.zero_mul] at hlen
    exact List.eq_nil_of_length_eq_zero hlen.symm
  · intro h
    rw [length, h, List.length_nil, Nat.zero_div]

/-- A length in samples per channel, in slots of the interleaved list. -/
theorem mul_channels_le {f : Frame} {n : Nat} (h : n ≤ f.length) :
    n * f.channels ≤ f.samples.length := by
  rw [← f.length_mul_channels]
  exact Nat.mul_le_mul_right _ h

/-- A length past the end, in slots of the interleaved list. -/
theorem le_mul_channels {f : Frame} {n : Nat} (h : f.length ≤ n) :
    f.samples.length ≤ n * f.channels := by
  rw [← f.length_mul_channels]
  exact Nat.mul_le_mul_right _ h

/-- A frame has a positive length exactly if it has samples. -/
theorem length_pos_iff (f : Frame) : 0 < f.length ↔ f.samples ≠ [] := by
  rw [Nat.pos_iff_ne_zero, ne_eq, length_eq_zero_iff]

/-- The samples of the first part of a frame. -/
@[simp] theorem samples_take (f : Frame) (n : Nat) :
    (f.take n).samples = f.samples.take (n * f.channels) := rfl

/-- The samples of what follows that part. -/
@[simp] theorem samples_drop (f : Frame) (n : Nat) :
    (f.drop n).samples = f.samples.drop (n * f.channels) := rfl

/-- The length of the first part, in slots. -/
private theorem length_take_mul_channels (f : Frame) (n : Nat) :
    (f.take n).length * f.channels = min (n * f.channels) f.samples.length := by
  rw [length_take, ← Nat.mul_min_mul_right, f.length_mul_channels]

/-- A block that is cut short ends where the stream ends. -/
theorem take_length_take (f : Frame) (n : Nat) : f.take (f.take n).length = f.take n := by
  refine eq_of_format_of_samples rfl ?_
  rw [samples_take, length_take_mul_channels, samples_take]
  exact (List.take_eq_take_min ..).symm

/-- What follows a block that is cut short is what follows a whole one. -/
theorem drop_length_take (f : Frame) (n : Nat) : f.drop (f.take n).length = f.drop n := by
  refine eq_of_format_of_samples rfl ?_
  rw [samples_drop, length_take_mul_channels, samples_drop]
  exact (List.drop_eq_drop_min ..).symm

/-- Leaving out samples twice leaves out the sum. -/
theorem drop_drop (f : Frame) (n k : Nat) : (f.drop n).drop k = f.drop (n + k) := by
  refine eq_of_format_of_samples rfl ?_
  rw [samples_drop, samples_drop, samples_drop, List.drop_drop, Nat.add_mul]
  rfl

/-- What precedes a part and the part itself are the stream up to the end of the part. -/
theorem take_append_take_drop (f : Frame) (n k : Nat) :
    f.samples.take (n * f.channels) ++ ((f.drop n).take k).samples =
      f.samples.take ((n + k) * f.channels) := by
  rw [samples_take, samples_drop, Nat.add_mul, List.take_add]
  rfl

/-- Silence for a frame has its format. -/
@[simp] theorem format_silenceLike (f : Frame) (n : Nat) : (f.silenceLike n).format = f.format :=
  rfl

/-- Silence for a frame has the length that is asked for. -/
@[simp] theorem length_silenceLike (f : Frame) (n : Nat) : (f.silenceLike n).length = n := by
  show (List.replicate (n * f.channels) Sample.silence).length / f.channels = n
  rw [List.length_replicate, Nat.mul_div_cancel _ f.channels_pos]

/-- Splitting fails exactly past the end. -/
theorem splitAt?_eq_none_iff (f : Frame) (n : Nat) : f.splitAt? n = none ↔ f.length < n := by
  simp [splitAt?]

/-- Splitting within the frame gives both parts. -/
theorem splitAt?_of_le {f : Frame} {n : Nat} (h : n ≤ f.length) :
    f.splitAt? n = some (f.take n, f.drop n) :=
  if_pos h

/-- Appending fails exactly for differing formats. -/
theorem append?_eq_none_iff (f g : Frame) : f.append? g = none ↔ f.format ≠ g.format := by
  simp [append?]

/-- Appending joins the samples and keeps the format. -/
theorem append?_of_format_eq {f g : Frame} (h : f.format = g.format) :
    ∃ joined, f.append? g = some joined ∧ joined.format = f.format ∧
      joined.samples = f.samples ++ g.samples := by
  rw [append?, dif_pos h]
  exact ⟨_, rfl, rfl, rfl⟩

/-- Replacing samples keeps the format. -/
@[simp] theorem format_replace (f : Frame) (xs : List Sample) :
    (f.replace xs).format = f.format := by
  unfold replace
  split <;> rfl

/-- Replacing samples keeps the length. -/
@[simp] theorem length_replace (f : Frame) (xs : List Sample) :
    (f.replace xs).length = f.length := by
  unfold replace
  split
  · rename_i h
    simp only [length, h]
  · rfl

/-- Samples of the same number take the place of those of a frame. -/
theorem samples_replace {f : Frame} {xs : List Sample} (h : xs.length = f.samples.length) :
    (f.replace xs).samples = xs := by
  rw [replace, dif_pos h]

/-- The samples of consecutive frames. -/
def concat (fs : List Frame) : List Sample := (fs.map samples).flatten

/-- No frames have no samples. -/
@[simp] theorem concat_nil : concat [] = [] := rfl

/-- The samples of the first frame come first. -/
@[simp] theorem concat_cons (f : Frame) (fs : List Frame) :
    concat (f :: fs) = f.samples ++ concat fs := by
  simp [concat]

/-- The samples of frames one after another. -/
@[simp] theorem concat_append (fs gs : List Frame) : concat (fs ++ gs) = concat fs ++ concat gs := by
  simp [concat]

/-- The fold of `join`, from samples already joined. -/
private theorem foldl_append? {format : Format} (reversed : List Frame) (joined : Frame)
    (hjoined : joined.format = format) (h : ∀ f ∈ reversed, f.format = format) :
    (reversed.foldl (fun joined g => (g.append? joined).getD joined) joined).format = format ∧
      (reversed.foldl (fun joined g => (g.append? joined).getD joined) joined).samples =
        concat reversed.reverse ++ joined.samples := by
  induction reversed generalizing joined with
  | nil => exact ⟨hjoined, rfl⟩
  -- one more frame stands before what has been joined
  | cons g gs ih =>
    have hg : g.format = format := h g (List.mem_cons_self ..)
    obtain ⟨j, hj, hformat, hsamples⟩ := append?_of_format_eq (hg.trans hjoined.symm)
    have hrest := ih j (hformat.trans hg) fun f hf => h f (List.mem_cons_of_mem _ hf)
    simp only [List.foldl_cons, hj, Option.getD_some]
    refine ⟨hrest.1, ?_⟩
    simp [hrest.2, hsamples]

/-- Joining frames of one format keeps the format. -/
theorem format_join (f : Frame) {reversed : List Frame}
    (h : ∀ g ∈ reversed, g.format = f.format) : (f.join reversed).format = f.format :=
  (foldl_append? reversed f.emptied rfl h).1

/-- Joining frames of one format loses nothing. -/
theorem samples_join (f : Frame) {reversed : List Frame}
    (h : ∀ g ∈ reversed, g.format = f.format) :
    (f.join reversed).samples = concat reversed.reverse := by
  rw [join, (foldl_append? reversed f.emptied rfl h).2]
  exact List.append_nil _

/-! ### Cutting and joining -/

/-- What appending gives: it joins the samples of frames of one format. -/
theorem append?_eq_some_iff {f g joined : Frame} : f.append? g = some joined ↔
    f.format = g.format ∧ joined.format = f.format ∧ joined.samples = f.samples ++ g.samples := by
  constructor
  · intro h
    unfold append? at h
    split at h
    · rename_i hformat
      obtain rfl := Option.some.inj h
      exact ⟨hformat, rfl, rfl⟩
    · exact nomatch h
  · rintro ⟨hformat, hjoined, hsamples⟩
    obtain ⟨joined', h, hformat', hsamples'⟩ := append?_of_format_eq hformat
    rw [h]
    exact congrArg some (eq_of_format_of_samples (hformat'.trans hjoined.symm)
      (hsamples'.trans hsamples.symm))

variable {f g h joined : Frame}

/-- Lengths are added when frames are joined. -/
theorem length_of_append? (hjoined : f.append? g = some joined) :
    joined.length = f.length + g.length := by
  obtain ⟨hformat, hformat', hsamples⟩ := append?_eq_some_iff.mp hjoined
  have hc : joined.channels = f.channels := congrArg Format.channels hformat'
  have hc' : f.channels = g.channels := congrArg Format.channels hformat
  -- counted in slots
  refine Nat.eq_of_mul_eq_mul_right f.channels_pos ?_
  rw [← hc, length_mul_channels, hsamples, List.length_append, hc, Nat.add_mul,
    length_mul_channels, hc', length_mul_channels]

/-- What was split comes together again. -/
theorem append?_take_drop (f : Frame) (n : Nat) : (f.take n).append? (f.drop n) = some f :=
  append?_eq_some_iff.mpr ⟨rfl, rfl, (f.samples_take_append_drop n).symm⟩

/-- What was appended comes apart again. -/
theorem splitAt?_of_append? (hjoined : f.append? g = some joined) :
    joined.splitAt? f.length = some (f, g) := by
  obtain ⟨hformat, hformat', hsamples⟩ := append?_eq_some_iff.mp hjoined
  have hc : joined.channels = f.channels := congrArg Format.channels hformat'
  have hlength : f.length ≤ joined.length := by
    rw [length_of_append? hjoined]
    exact Nat.le_add_right ..
  -- in slots, the first part ends where the first frame ended
  have hhead : joined.take f.length = f := by
    refine eq_of_format_of_samples hformat' ?_
    rw [samples_take, hsamples, hc, f.length_mul_channels, List.take_left]
  have htail : joined.drop f.length = g := by
    refine eq_of_format_of_samples (hformat'.trans hformat) ?_
    rw [samples_drop, hsamples, hc, f.length_mul_channels, List.drop_left]
  rw [splitAt?_of_le hlength, hhead, htail]

/-- Joining is associative. -/
theorem append?_assoc {fg gh : Frame} (hfg : f.append? g = some fg) (hgh : g.append? h = some gh) :
    ∃ joined, fg.append? h = some joined ∧ f.append? gh = some joined := by
  obtain ⟨hformat, hformat', hsamples⟩ := append?_eq_some_iff.mp hfg
  obtain ⟨hformat₂, hformat₂', hsamples₂⟩ := append?_eq_some_iff.mp hgh
  obtain ⟨joined, hjoined, hformat₃, hsamples₃⟩ :=
    append?_of_format_eq (hformat'.trans (hformat.trans hformat₂))
  refine ⟨joined, hjoined, append?_eq_some_iff.mpr ⟨hformat.trans hformat₂'.symm,
    hformat₃.trans hformat', ?_⟩⟩
  rw [hsamples₃, hsamples, hsamples₂, List.append_assoc]

/-- An empty frame on the right is a unit. -/
theorem append?_empty (hformat : f.format = g.format) (hg : g.isEmpty = true) :
    f.append? g = some f := by
  rw [isEmpty_eq_true_iff] at hg
  exact append?_eq_some_iff.mpr ⟨hformat, rfl, by rw [hg, List.append_nil]⟩

/-- An empty frame on the left is a unit. -/
theorem empty_append? (hformat : f.format = g.format) (hf : f.isEmpty = true) :
    f.append? g = some g := by
  rw [isEmpty_eq_true_iff] at hf
  exact append?_eq_some_iff.mpr ⟨hformat, hformat.symm, by rw [hf, List.nil_append]⟩

/-- A part after some samples is what follows them in a longer first part. -/
theorem take_drop (f : Frame) (n k : Nat) : (f.drop n).take k = (f.take (n + k)).drop n := by
  refine eq_of_format_of_samples rfl ?_
  rw [samples_take, samples_drop, samples_drop, samples_take, Nat.add_mul]
  exact List.take_drop

/-- The first part of a longer first part. -/
theorem take_take (f : Frame) {n k : Nat} (h : n ≤ k) : (f.take k).take n = f.take n := by
  refine eq_of_format_of_samples rfl ?_
  rw [samples_take, samples_take, samples_take, List.take_take]
  exact congrArg (List.take · f.samples) (Nat.min_eq_left (Nat.mul_le_mul_right _ h))

/-- Three pieces, cut from the front or from the back. -/
theorem splitAt?_splitAt? (f : Frame) (n k : Nat) :
    ((f.splitAt? n).bind fun (x, yz) => (yz.splitAt? k).map fun (y, z) => (x, y, z)) =
      (f.splitAt? (n + k)).bind fun (xy, z) => (xy.splitAt? n).map fun (x, y) => (x, y, z) := by
  by_cases h : n + k ≤ f.length
  · have htail : k ≤ (f.drop n).length := by
      rw [length_drop]
      omega
    have hhead : n ≤ (f.take (n + k)).length := by
      rw [length_take]
      omega
    simp only [splitAt?_of_le (Nat.le_of_add_right_le h), splitAt?_of_le h, Option.bind_some,
      splitAt?_of_le htail, splitAt?_of_le hhead, Option.map_some, drop_drop, take_drop,
      take_take f (Nat.le_add_right n k)]
  · -- one of the cuts lies past the end
    have hpast : f.splitAt? (n + k) = none := (f.splitAt?_eq_none_iff _).mpr (by omega)
    rw [hpast, Option.bind_none, Option.bind_eq_none_iff]
    rintro ⟨x, yz⟩ hsplit
    simp only [splitAt?] at hsplit
    split at hsplit
    · obtain ⟨rfl, rfl⟩ := Prod.mk.inj (Option.some.inj hsplit)
      have htail : (f.drop n).splitAt? k = none := by
        rw [splitAt?_eq_none_iff, length_drop]
        omega
      simp only [htail, Option.map_none]
    · exact nomatch hsplit

/-- A sample is missing exactly from the length on. -/
theorem sample?_eq_none_iff (f : Frame) (i : Nat) : f.sample? i = none ↔ f.length ≤ i := by
  simp [sample?]

/-- A sample of a joined frame is one of its parts. -/
theorem sample?_of_append? (hjoined : f.append? g = some joined) (i : Nat) :
    joined.sample? i = if i < f.length then f.sample? i else g.sample? (i - f.length) := by
  obtain ⟨hformat, hformat', hsamples⟩ := append?_eq_some_iff.mp hjoined
  have hc : joined.channels = f.channels := congrArg Format.channels hformat'
  have hc' : f.channels = g.channels := congrArg Format.channels hformat
  have hslots := f.length_mul_channels
  simp only [sample?, length_of_append? hjoined, hc, hsamples]
  by_cases hi : i < f.length
  · -- all channels of the sample lie in the left part
    have hwhole : i * f.channels + f.channels ≤ f.samples.length := by
      rw [← Nat.succ_mul]
      exact mul_channels_le hi
    rw [if_pos (by omega), if_pos hi, if_pos hi, List.drop_append_of_le_length (by omega),
      List.take_append_of_le_length (by rw [List.length_drop]; omega)]
  -- past the left part, positions count from its end
  · have hright : (f.samples ++ g.samples).drop (i * f.channels) =
        g.samples.drop ((i - f.length) * g.channels) := by
      rw [List.drop_append, List.drop_of_length_le (le_mul_channels (Nat.le_of_not_lt hi)),
        List.nil_append, ← hc', Nat.sub_mul, hslots]
    rw [if_neg hi, hright, hc']
    simp only [show i < f.length + g.length ↔ i - f.length < g.length by omega]

end DynamicRange.Frame
