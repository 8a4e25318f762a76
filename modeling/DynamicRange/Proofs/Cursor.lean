import DynamicRange.Cursor
import DynamicRange.Proofs.Frame

/-!
# Laws of cursors

A cursor hands out consecutive blocks: the blocks of a stream, in order, are the stream. Silence
may follow the end of a stream; `Frame.padded` is what is read then.

## Key results

- `Cursor.Valid.next?_eq_none_iff`, `Cursor.Valid.next?_spec`: one call of `next?`
- `Cursor.Handed`: the frames so far are the stream up to the position, with `Cursor.Handed.next`
- `Frame.padded_of_le`, `Frame.padded_of_ge`: reading on before and after the end
-/

namespace DynamicRange

namespace Frame

/-- The first `n` samples of a stream that silence follows. -/
def padded (f : Frame) (n : Nat) : List Sample :=
  (f.samples ++ List.replicate (n * f.channels) Sample.silence).take (n * f.channels)

/-- A padded stream has as many samples as are asked for. -/
@[simp] theorem length_padded (f : Frame) (n : Nat) :
    (f.padded n).length = n * f.channels := by
  rw [padded, List.length_take, List.length_append, List.length_replicate]
  omega

/-- The first no samples are none. -/
@[simp] theorem padded_zero (f : Frame) : f.padded 0 = [] := by simp [padded]

/-- Within the stream there is nothing to pad. -/
theorem padded_of_le {f : Frame} {n : Nat} (h : n ≤ f.length) :
    f.padded n = f.samples.take (n * f.channels) := by
  rw [padded, List.take_append_of_le_length (mul_channels_le h)]

/-- Past the end there is the whole stream, and silence after it. -/
theorem padded_of_ge {f : Frame} {n : Nat} (h : f.length ≤ n) :
    f.padded n = f.samples ++ List.replicate ((n - f.length) * f.channels) .silence := by
  rw [padded, List.take_append, List.take_of_length_le (le_mul_channels h), List.take_replicate,
    Nat.sub_mul, f.length_mul_channels, Nat.min_eq_left (Nat.sub_le ..)]

/-- Past the end only silence is read. -/
theorem padded_append_silence {f : Frame} {n : Nat} (h : f.length ≤ n) (k : Nat) :
    -- past the end, what is asked for more is silence
    f.padded n ++ (f.silenceLike k).samples = f.padded (n + k) := by
  have hsub : n + k - f.length = (n - f.length) + k := by omega
  rw [padded_of_ge h, padded_of_ge (Nat.le_add_right_of_le h), hsub, Nat.add_mul,
    ← List.replicate_append_replicate, List.append_assoc]
  rfl

end Frame

namespace Cursor

/-- The samples still to come are those of the stream past the position. -/
structure Valid (c : Cursor) : Prop where
  rest_eq : c.rest = c.stream.drop c.position
  position_le : c.position ≤ c.stream.length

/-- A new cursor is at the start, with the whole stream to come. -/
theorem valid_ofFrame (f : Frame) : (ofFrame f).Valid where
  rest_eq := Frame.eq_of_format_of_samples rfl (by simp [ofFrame])
  position_le := Nat.zero_le _

variable {c : Cursor}

/-- What is still to come, in samples. -/
theorem Valid.length_rest (hc : c.Valid) : c.rest.length = c.stream.length - c.position := by
  rw [hc.rest_eq, Frame.length_drop]

/-- A block is the head of the rest, and the cursor moves past it. -/
theorem eq_of_next?_eq_some {size : Nat} {f : Frame} {c' : Cursor}
    (h : c.next? size = some (f, c')) :
    f = c.rest.take size ∧
      c' = { c with position := c.position + f.length, rest := c.rest.drop size } := by
  simp only [next?] at h
  split at h
  · exact nomatch h
  · obtain ⟨rfl, rfl⟩ := Prod.mk.inj (Option.some.inj h)
    exact ⟨rfl, rfl⟩

/-- There is a block unless the end is reached. -/
theorem Valid.next?_eq_none_iff (hc : c.Valid) (size : Nat) :
    c.next? size = none ↔ c.position = c.stream.length := by
  have hle := hc.position_le
  -- nothing is to come exactly when the position is the length
  have hempty : c.isExhausted = true ↔ c.position = c.stream.length := by
    rw [isExhausted, Frame.isEmpty_eq_true_iff, ← Frame.length_eq_zero_iff, hc.length_rest]
    omega
  rw [← hempty]
  simp only [next?]
  split
  · rename_i h
    exact ⟨fun _ => h, fun _ => rfl⟩
  · rename_i h
    exact ⟨nofun, fun h' => absurd h' h⟩

/-- A block goes on where the last one ended. It has the format of the stream and `size` samples,
or as many as there are left. -/
theorem Valid.next?_spec (hc : c.Valid) {size : Nat} {f : Frame} {c' : Cursor}
    (h : c.next? size = some (f, c')) :
    c'.Valid ∧ c'.stream = c.stream ∧ c'.position = c.position + f.length ∧
      f.format = c.stream.format ∧ f.length = min size (c.stream.length - c.position) ∧
      c.stream.samples.take (c.position * c.stream.channels) ++ f.samples =
        c.stream.samples.take (c'.position * c.stream.channels) := by
  have hle := hc.position_le
  obtain ⟨rfl, rfl⟩ := eq_of_next?_eq_some h
  have hlength : (c.rest.take size).length = min size (c.stream.length - c.position) := by
    rw [Frame.length_take, hc.length_rest]
  refine ⟨⟨?_, ?_⟩, rfl, rfl, ?_, hlength, ?_⟩
  · -- a block that is cut short leaves nothing, as one of full size would
    show c.rest.drop size = c.stream.drop (c.position + (c.rest.take size).length)
    rw [← Frame.drop_length_take, hc.rest_eq, Frame.drop_drop]
  · show c.position + (c.rest.take size).length ≤ c.stream.length
    omega
  · rw [hc.rest_eq]
    rfl
  -- what was handed out before and the block are the stream up to the new position
  · show _ = c.stream.samples.take ((c.position + (c.rest.take size).length) * c.stream.channels)
    rw [← Frame.take_append_take_drop, ← hc.rest_eq, Frame.take_length_take]

/-- A block has a sample at least, if one is asked for. -/
theorem Valid.length_pos_of_next? (hc : c.Valid) {size : Nat} (hsize : 0 < size) {f : Frame}
    {c' : Cursor} (h : c.next? size = some (f, c')) : 0 < f.length := by
  have hle := hc.position_le
  -- a cursor at the end hands out nothing
  have hnotend : c.position ≠ c.stream.length := fun hend =>
    nomatch ((hc.next?_eq_none_iff size).mpr hend).symm.trans h
  obtain ⟨-, -, -, -, hlength, -⟩ := hc.next?_spec h
  omega

/-! ### What is handed out -/

/-- The host of a cursor has `frames`, which are the stream up to the position. -/
structure Handed (stream : Frame) (frames : List Frame) (c : Cursor) : Prop where
  valid : c.Valid
  stream_eq : c.stream = stream
  format_eq : ∀ f ∈ frames, f.format = stream.format
  concat_eq : Frame.concat frames = stream.samples.take (c.position * stream.channels)

/-- At the start the host has nothing. -/
theorem handed_ofFrame (stream : Frame) : Handed stream [] (ofFrame stream) where
  valid := valid_ofFrame stream
  stream_eq := rfl
  format_eq := nofun
  concat_eq := by simp [ofFrame]

namespace Handed

variable {stream : Frame} {frames : List Frame} {c : Cursor}

/-- A cursor is not past the end of its stream. -/
theorem position_le (h : Handed stream frames c) : c.position ≤ stream.length := by
  have hle := h.valid.position_le
  rwa [h.stream_eq] at hle

/-- There is a block unless the end of the stream is reached. -/
theorem next?_eq_none_iff (h : Handed stream frames c) (size : Nat) :
    c.next? size = none ↔ c.position = stream.length := by
  rw [h.valid.next?_eq_none_iff, h.stream_eq]

/-- One block more. -/
theorem next (h : Handed stream frames c) {size : Nat} {f : Frame} {c' : Cursor}
    (hnext : c.next? size = some (f, c')) : Handed stream (frames ++ [f]) c' := by
  obtain ⟨hvalid, hstream, -, hformat, -, htake⟩ := h.valid.next?_spec hnext
  rw [h.stream_eq] at hstream hformat htake
  refine ⟨hvalid, hstream, ?_, ?_⟩
  -- all blocks have the format of the stream
  · intro g hg
    rcases List.mem_append.mp hg with hg | hg
    · exact h.format_eq g hg
    · rw [List.mem_singleton.mp hg]
      exact hformat
  -- the new block follows what was handed out before
  · rw [Frame.concat_append, h.concat_eq, Frame.concat_cons, Frame.concat_nil, List.append_nil]
    exact htake

end Handed

end Cursor

end DynamicRange
