import DynamicRange.Proofs.Cursor
import DynamicRange.Proofs.InPlace
import DynamicRange.Reader

/-!
# Reading in place against a cursor

A reader cuts each block out of the whole stream by its position. It never comes to a position past
the end, so no difference is negative and every part that it cuts lies in the stream: it reads what
a cursor reads. What a host has been given since it last went back is the beginning of the stream up
to the position, whatever sizes it has asked for.

## Key results

- `Cursor.Handed.perform`, `Cursor.Handed.run`: what the host of a cursor has after a step, and
  after all of them
- `Cursor.Handed.drain`: positive sizes come to the end
- `Reader.nextFrame_eq`, `Reader.run_eq`: a reader against a cursor
- `Reader.nextFrame_spec`, `Reader.run_drain`, `Reader.run_reassembles`: all of this for the reader
-/

namespace DynamicRange

/-! ### The frames that a cursor hands out -/

namespace Cursor

open Reader (Step)

namespace Handed

variable {stream : Frame} {frames : List Frame} {c : Cursor}

/-- One step. -/
theorem perform (h : Handed stream frames c) (step : Step) :
    Handed stream (step.kept frames (c.perform step).1) (c.perform step).2 := by
  cases step with
  -- a block is kept, and going back keeps none
  | next size =>
    simp only [Step.kept, Cursor.perform]
    cases hnext : c.next? size with
    | none => simpa using h
    | some r => exact h.next hnext
  | rewind =>
    have hstart : c.rewind = ofFrame stream := congrArg ofFrame h.stream_eq
    simp only [Step.kept, Cursor.perform, hstart]
    exact handed_ofFrame stream

/-- By induction on the steps, with any frames at the start. -/
theorem run (h : Handed stream frames c) (steps : List Step) :
    Handed stream (c.run frames steps).1 (c.run frames steps).2 := by
  induction steps generalizing frames c with
  | nil => exact h
  | cons step steps ih => exact ih (h.perform step)

/-- Positive sizes come to the end, with at least one sample for each call. By induction on the
samples that are still to come. -/
theorem drain (h : Handed stream frames c) {sizes : Nat → Nat} (hsizes : ∀ i, 0 < sizes i) :
    ∃ k ≤ stream.length - c.position, ∃ blocks : List Frame, blocks.length = k ∧
      (c.run frames ((List.range k).map (Step.next ∘ sizes))).1 = frames ++ blocks ∧
      (c.run frames ((List.range k).map (Step.next ∘ sizes))).2.position =
        stream.length := by
  obtain ⟨left, hleft⟩ : ∃ left, stream.length - c.position = left := ⟨_, rfl⟩
  induction left using Nat.strongRecOn generalizing frames c sizes with
  | ind left ih =>
    -- the first size gives a block, so the rest is shorter
    cases hnext : c.next? (sizes 0) with
    | none =>
      have hend := (h.next?_eq_none_iff _).mp hnext
      exact ⟨0, Nat.zero_le _, [], rfl, (List.append_nil _).symm, hend⟩
    | some r =>
      obtain ⟨f, c'⟩ := r
      obtain ⟨-, -, hposition, -⟩ := h.valid.next?_spec hnext
      have hpos := h.valid.length_pos_of_next? (hsizes 0) hnext
      have h' := h.next hnext
      have hle := h'.position_le
      obtain ⟨k, hk, blocks, hlength, hframes, hend⟩ :=
        ih (stream.length - c'.position) (by omega) h' (fun i => hsizes (i + 1)) rfl
      -- the first call, then the others with the sizes that follow
      have hrun : c.run frames ((List.range (k + 1)).map (Step.next ∘ sizes)) =
          c'.run (frames ++ [f])
            ((List.range k).map (Step.next ∘ fun i => sizes (i + 1))) := by
        rw [List.range_succ_eq_map, List.map_cons, List.map_map, Cursor.run]
        simp only [Cursor.perform, Function.comp_apply, hnext]
        rfl
      refine ⟨k + 1, by omega, f :: blocks, by rw [List.length_cons, hlength], ?_, ?_⟩
      · rw [hrun, hframes, List.append_assoc, List.singleton_append]
      · rw [hrun, hend]

end Handed

/-- The reader that has handed out as much. -/
def reader (c : Cursor) : Reader := { stream := c.stream, position := c.position }

end Cursor

/-! ### The reader -/

namespace Reader

variable {c : Cursor}

/-- What is left, in samples: the subtraction does not fail. -/
theorem remaining_eq {r : Reader} (h : r.position ≤ r.stream.length) :
    remaining r = .ok (r.stream.length - r.position) r := by
  unfold remaining
  rw [Call.get_bind, Call.require_bind, if_pos h]
  rfl

/-- The block of a cursor, cut out of the whole list. -/
theorem slice_rest (hc : c.Valid) (size : Nat) (r : Reader) :
    Call.slice c.stream.samples (c.position * c.stream.channels)
        (c.position * c.stream.channels +
          min size (c.stream.length - c.position) * c.stream.channels) r =
      .ok (c.rest.take size).samples r := by
  have hle := hc.position_le
  have hstop : c.position * c.stream.channels +
      min size (c.stream.length - c.position) * c.stream.channels ≤ c.stream.samples.length := by
    rw [← Nat.add_mul]
    exact Frame.mul_channels_le (by omega)
  -- a block that is cut short ends at the end of the stream, as the slice does
  have hcut : c.rest.take (min size (c.stream.length - c.position)) = c.rest.take size := by
    rw [← hc.length_rest, ← Frame.length_take, Frame.take_length_take]
  have hrest : (c.stream.samples.drop (c.position * c.stream.channels)).take
      (min size (c.stream.length - c.position) * c.stream.channels) =
        (c.rest.take size).samples := by
    rw [← hcut, hc.rest_eq]
    rfl
  rw [Call.slice_eq, if_pos ⟨Nat.le_add_right _ _, hstop⟩, Nat.add_sub_cancel_left, hrest]

/-- A block of the reader is that of the cursor, and the reader stays with it. -/
theorem nextFrame_eq (hc : c.Valid) (size : Nat) :
    nextFrame size c.reader = match c.next? size with
      | some (f, c') => .ok (some f) c'.reader
      | none => .ok none c.reader := by
  have hremaining : remaining c.reader = .ok (c.stream.length - c.position) c.reader :=
    remaining_eq hc.position_le
  unfold nextFrame
  rw [Call.bind_of_ok hremaining]
  -- at the end there is nothing left, and otherwise the slice is within the stream
  cases hnext : c.next? size with
  | none =>
    have hend : c.stream.length - c.position = 0 := by
      rw [(hc.next?_eq_none_iff size).mp hnext, Nat.sub_self]
    rw [if_pos hend]
    rfl
  | some r =>
    obtain ⟨f, c'⟩ := r
    have hle := hc.position_le
    have hnotend : ¬c.stream.length - c.position = 0 := by
      intro hend
      have hnone : c.next? size = none := (hc.next?_eq_none_iff size).mpr (by omega)
      exact nomatch hnext.symm.trans hnone
    obtain ⟨-, -, -, hformat, hlength, -⟩ := hc.next?_spec hnext
    obtain ⟨hf, rfl⟩ := Cursor.eq_of_next?_eq_some hnext
    rw [if_neg hnotend, Call.bind_of_ok hremaining, Call.get_bind]
    -- the position is moved before the block is cut out
    simp only [Cursor.reader, Call.modify_bind]
    have hchannels : f.channels = c.stream.channels := congrArg Format.channels hformat
    have hrate : f.rate = c.stream.rate := congrArg Format.rate hformat
    rw [Call.bind_of_ok (slice_rest hc size _), ← hf, ← hchannels, ← hrate,
      f.ofInterleaved?_samples, ← hlength]
    rfl

/-- A step of the reader is one of the cursor. -/
theorem perform_eq (hc : c.Valid) (step : Step) :
    perform step c.reader = .ok (c.perform step).1 (c.perform step).2.reader := by
  cases step with
  | next size =>
    simp only [perform, Cursor.perform]
    rw [nextFrame_eq hc]
    cases c.next? size with
    | none => rfl
    | some r => rfl
  | rewind => rfl

/-- By induction on the steps: no step stops, and the reader stays with the cursor. -/
theorem run_eq {stream : Frame} {frames : List Frame} (h : Cursor.Handed stream frames c)
    (steps : List Step) :
    run frames steps c.reader = .ok (c.run frames steps).1 (c.run frames steps).2.reader := by
  induction steps generalizing frames c with
  | nil => rfl
  | cons step steps ih =>
    rw [run, Call.bind_of_ok (perform_eq h.valid step), ih (h.perform step)]
    rfl

/-- The next call gives no block exactly at the end, and otherwise as many samples as are asked for
and left. -/
theorem nextFrame_spec {stream : Frame} {frames : List Frame} (h : Cursor.Handed stream frames c)
    (size : Nat) :
    ∃ reply r, nextFrame size c.reader = .ok reply r ∧
      (reply = none ↔ c.position = stream.length) ∧ (reply = none → r = c.reader) ∧
      ∀ f, reply = some f → f.format = stream.format ∧
        f.length = min size (stream.length - c.position) ∧
        r = { stream, position := c.position + f.length } := by
  rw [nextFrame_eq h.valid]
  -- the reader and the cursor come to the same block
  cases hnext : c.next? size with
  | none =>
    have hend := (h.next?_eq_none_iff size).mp hnext
    exact ⟨none, c.reader, rfl, iff_of_true rfl hend, fun _ => rfl, nofun⟩
  | some r =>
    obtain ⟨f, c'⟩ := r
    obtain ⟨-, hstream, hposition, hformat, hlength, -⟩ := h.valid.next?_spec hnext
    rw [h.stream_eq] at hstream hformat hlength
    refine ⟨some f, c'.reader, rfl, ⟨nofun, fun hend => ?_⟩, nofun, ?_⟩
    · exact nomatch hnext.symm.trans ((h.next?_eq_none_iff size).mpr hend)
    · rintro _ ⟨⟩
      refine ⟨hformat, hlength, ?_⟩
      rw [Cursor.reader, hstream, hposition]

/-- Positive sizes come to the end after at most as many blocks as there are samples left, and the
blocks are then the whole stream. -/
theorem run_drain {stream : Frame} {frames : List Frame} (h : Cursor.Handed stream frames c)
    {sizes : Nat → Nat} (hsizes : ∀ i, 0 < sizes i) :
    ∃ k ≤ stream.length - c.position, ∃ blocks : List Frame, blocks.length = k ∧
      run frames ((List.range k).map (Step.next ∘ sizes)) c.reader =
        .ok (frames ++ blocks) { stream, position := stream.length } ∧
      Frame.concat (frames ++ blocks) = stream.samples := by
  obtain ⟨k, hk, blocks, hblocks, hframes, hend⟩ := h.drain hsizes
  have hdrained := h.run ((List.range k).map (Step.next ∘ sizes))
  refine ⟨k, hk, blocks, hblocks, ?_, ?_⟩
  -- the blocks are the stream up to its end
  · rw [run_eq h, hframes, Cursor.reader, hdrained.stream_eq, hend]
  · rw [← hframes, hdrained.concat_eq, hend, stream.length_mul_channels, List.take_length]

/-- A host that asks for blocks of any sizes, and goes back to the start whenever it likes, is never
stopped: the position stays within the stream. What it was given since it last went back is the
beginning of the stream up to the position, in the format of the stream. The next call gives no
block exactly at the end, and otherwise as many samples as are asked for and left. Sizes that are
positive from now on come to the end after at most as many blocks as there are samples left, and
the blocks are then the whole stream. -/
theorem run_reassembles (stream : Frame) (steps : List Step) :
    ∃ (frames : List Frame) (c : Cursor),
      run [] steps (ofFrame stream) = .ok frames c.reader ∧
      (Cursor.ofFrame stream).run [] steps = (frames, c) ∧
      c.stream = stream ∧ c.position ≤ stream.length ∧
      remaining c.reader = .ok (stream.length - c.position) c.reader ∧
      (∀ f ∈ frames, f.format = stream.format) ∧
      Frame.concat frames = stream.samples.take (c.position * stream.channels) ∧
      (∀ size, ∃ reply r, nextFrame size c.reader = .ok reply r ∧
        (reply = none ↔ c.position = stream.length) ∧ (reply = none → r = c.reader) ∧
        ∀ f, reply = some f → f.format = stream.format ∧
          f.length = min size (stream.length - c.position) ∧
          r = { stream, position := c.position + f.length }) ∧
      ∀ sizes : Nat → Nat, (∀ i, 0 < sizes i) →
        ∃ k ≤ stream.length - c.position, ∃ blocks : List Frame, blocks.length = k ∧
          run frames ((List.range k).map (Step.next ∘ sizes)) c.reader =
            .ok (frames ++ blocks) { stream, position := stream.length } ∧
          Frame.concat (frames ++ blocks) = stream.samples := by
  -- the cursor carries the invariant, and the reader follows it
  have hstart := Cursor.handed_ofFrame stream
  have h := hstart.run steps
  have hrun := run_eq hstart steps
  generalize (Cursor.ofFrame stream).run [] steps = result at h hrun
  obtain ⟨frames, c⟩ := result
  have hremaining : remaining c.reader = .ok (stream.length - c.position) c.reader := by
    rw [← h.stream_eq]
    exact remaining_eq h.valid.position_le
  exact ⟨frames, c, hrun, rfl, h.stream_eq, h.position_le, hremaining, h.format_eq, h.concat_eq,
    nextFrame_spec h, fun sizes hsizes => run_drain h hsizes⟩

end Reader

end DynamicRange
