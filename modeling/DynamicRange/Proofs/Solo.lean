import DynamicRange.Proofs.Cursor
import DynamicRange.Proofs.SelfKeyed
import DynamicRange.Render

/-!
# Rendering one stream

A compressor of one stream has no state but its engine, so a stream may be cut anywhere: frames one
after another come as far as the whole stream in one frame. The rendering is a case of this. Its
blocks are consecutive, and the last one ends where the stream ends, whatever their size is.

## Key results

- `Compressor.processAll_eq_process`: frames one after another against one frame
- `Solo.Progress`: the loop invariant, with `Progress.step` for one step
- `Compressor.render_fst_eq`: the rendering against one frame
-/

namespace DynamicRange

namespace Compressor

/-- Frames of two lists, one after the other. -/
theorem processAll_append (c : Compressor) (fs gs : List Frame) :
    c.processAll (fs ++ gs) =
      ((c.processAll fs).1 ++ ((c.processAll fs).2.processAll gs).1,
        ((c.processAll fs).2.processAll gs).2) := by
  induction fs generalizing c with
  | nil => rfl
  | cons f fs ih => rw [List.cons_append, processAll, ih, processAll, List.cons_append]

/-- Compressing keeps the format. -/
@[simp] theorem format_process (c : Compressor) (f : Frame) : (c.process f).1.format = f.format :=
  f.format_replace _

/-- Compressing keeps the length. -/
@[simp] theorem length_process (c : Compressor) (f : Frame) : (c.process f).1.length = f.length :=
  f.length_replace _

/-- Compressing frames keeps their format. -/
theorem format_processAll {format : Format} {frames : List Frame}
    (h : ∀ f ∈ frames, f.format = format) (c : Compressor) :
    ∀ g ∈ (c.processAll frames).1, g.format = format := by
  induction frames generalizing c with
  | nil => exact nofun
  | cons f fs ih =>
    obtain ⟨hf, hfs⟩ := List.forall_mem_cons.mp h
    exact List.forall_mem_cons.mpr ⟨(c.format_process f).trans hf, ih hfs _⟩

/-- Frames at the rate of the compressor come as far as all of them in one frame. -/
theorem processAll_eq_process {c : Compressor} {whole : Frame} {frames : List Frame}
    (hrate : whole.rate = c.rate) (hformat : ∀ f ∈ frames, f.format = whole.format)
    (hwhole : Frame.concat frames = whole.samples) :
    Frame.concat (c.processAll frames).1 = (c.process whole).1.samples ∧
      (c.processAll frames).2 = (c.process whole).2 := by
  have hlen : whole.length * whole.channels = (Frame.concat frames).length := by
    rw [hwhole, whole.length_mul_channels]
  obtain ⟨hsamples, hstate⟩ := process_of_rate_eq hrate
  -- in one frame and in many, it is the output of the engine over the same samples
  obtain ⟨hall, hafter⟩ := processAll_spec hformat c hrate hlen whole.channels_pos
  rw [hwhole] at hall hafter
  exact ⟨hall.trans hsamples.symm, hafter.trans hstate.symm⟩

end Compressor

namespace Solo

/-- The rendering has compressed the blocks, which are the stream up to the cursor. -/
structure Progress (c : Compressor) (stream : Frame) (blocks : List Frame) (s : Solo) : Prop where
  valid : s.cursor.Valid
  stream_eq : s.cursor.stream = stream
  done_eq : s.done.reverse = (c.processAll blocks).1
  compressor_eq : s.compressor = (c.processAll blocks).2
  format_eq : ∀ f ∈ blocks, f.format = stream.format
  concat_eq : Frame.concat blocks = stream.samples.take (s.cursor.position * stream.channels)

/-- A rendering at its start. -/
theorem progress_start (c : Compressor) (stream : Frame) (reduction : Float32) :
    Progress c stream []
      { compressor := c, cursor := .ofFrame stream, done := [], reduction } where
  valid := Cursor.valid_ofFrame stream
  stream_eq := rfl
  done_eq := rfl
  compressor_eq := rfl
  format_eq := nofun
  concat_eq := by simp [Cursor.ofFrame]

namespace Progress

variable {c : Compressor} {stream : Frame} {blocks : List Frame} {s : Solo}

/-- The blocks are what the cursor has handed out. -/
theorem handed (h : Progress c stream blocks s) : Cursor.Handed stream blocks s.cursor :=
  ⟨h.valid, h.stream_eq, h.format_eq, h.concat_eq⟩

/-- The cursor is not past the end of the stream. -/
theorem position_le (h : Progress c stream blocks s) : s.cursor.position ≤ stream.length :=
  h.handed.position_le

/-- The blocks done have the format of the stream. -/
theorem format_done (h : Progress c stream blocks s) : ∀ g ∈ s.done, g.format = stream.format := by
  intro g hg
  refine c.format_processAll h.format_eq g ?_
  rw [← h.done_eq]
  exact List.mem_reverse.mpr hg

/-- The next block is compressed where the last one has left the compressor. -/
theorem advance (h : Progress c stream blocks s) {size : Nat} {block : Frame} {cursor : Cursor}
    (hnext : s.cursor.next? size = some (block, cursor)) (reduction : Float32) :
    Progress c stream (blocks ++ [block])
      { compressor := (s.compressor.process block).2, cursor
        done := (s.compressor.process block).1 :: s.done, reduction } := by
  obtain ⟨hvalid, hstream, hformat, hconcat⟩ := h.handed.next hnext
  refine ⟨hvalid, hstream, ?_, ?_, hformat, hconcat⟩
  -- the block is compressed by the compressor that the others have left
  · rw [List.reverse_cons, h.done_eq, c.processAll_append, ← h.compressor_eq]
    rfl
  · rw [c.processAll_append, ← h.compressor_eq]
    rfl

/-- A step compresses one block more, unless the end is reached. -/
theorem step (h : Progress c stream blocks s) {size : Nat} (hsize : 0 < size) :
    (s.cursor.position = stream.length ∧ s.step size = none) ∨
      ∃ block s', s.step size = some s' ∧ Progress c stream (blocks ++ [block]) s' ∧
        s.cursor.position < s'.cursor.position := by
  unfold Solo.step
  cases hnext : s.cursor.next? size with
  | none =>
    exact .inl ⟨(h.handed.next?_eq_none_iff size).mp hnext, rfl⟩
  | some r =>
    obtain ⟨block, cursor⟩ := r
    obtain ⟨-, -, hposition, -⟩ := h.valid.next?_spec hnext
    have hpos := h.valid.length_pos_of_next? hsize hnext
    have hlt : s.cursor.position < cursor.position := by omega
    exact .inr ⟨block, _, rfl, h.advance hnext _, hlt⟩

/-- By induction on the samples still to come: the run ends at the end of the stream. -/
theorem run (h : Progress c stream blocks s) {size : Nat} (hsize : 0 < size) {fuel : Nat}
    (hfuel : stream.length < s.cursor.position + fuel) :
    ∃ all, Progress c stream all (s.run size fuel) ∧
      (s.run size fuel).cursor.position = stream.length ∧ (s.run size fuel).step size = none := by
  induction fuel generalizing blocks s with
  -- without fuel the samples still to come are none, which was excluded
  | zero =>
    have hle := h.position_le
    omega
  | succ fuel ih =>
    rw [Solo.run]
    rcases h.step hsize with ⟨hend, hstep⟩ | ⟨block, s', hstep, h', hlt⟩
    · rw [hstep]
      exact ⟨blocks, h, hend, hstep⟩
    · rw [hstep]
      exact ih h' (by omega)

end Progress

end Solo

/-- Rendering a stream at the rate of the compressor, in blocks of at least one sample. -/
theorem Compressor.render_fst_eq {c : Compressor} {stream : Frame} (hrate : stream.rate = c.rate)
    {size : Nat} (hsize : 0 < size) : (c.render size stream).1 = (c.process stream).1 := by
  have hfuel : stream.length < 0 + (stream.length + 1) := by omega
  -- the blocks of the run are the whole stream, whatever their size
  obtain ⟨blocks, h, hend, -⟩ := (Solo.progress_start c stream 0).run hsize hfuel
  have hwhole : Frame.concat blocks = stream.samples := by
    rw [h.concat_eq, hend, stream.length_mul_channels, List.take_length]
  refine Frame.eq_of_format_of_samples ?_ ?_
  · exact (stream.format_join h.format_done).trans (c.format_process stream).symm
  · refine (stream.samples_join h.format_done).trans ?_
    rw [h.done_eq]
    exact (processAll_eq_process hrate h.format_eq hwhole).1

end DynamicRange
