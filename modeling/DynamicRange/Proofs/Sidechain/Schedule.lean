import DynamicRange.Proofs.Sidechain.Basic

/-!
# Schedules of two lines

The frames of two streams reach the compressor in any order and cut in any way. What it has given
out, and the state it is in, are at every moment those of one run of the engine over the span that
both streams share by then. So only the streams matter, and not the schedule that delivers them.

## Key results

- `Tracks`: the simulation of one run of the engine, with `Tracks.feed` for one frame
- `feedAll_eq_process`: any schedule against one call of `Engine.process`
-/

namespace DynamicRange.SidechainCompressor

/-- The answer to a push. -/
abbrev Answer := Except FormatMismatch (Option Frame)

/-- Pushes a frame. A frame that is refused leaves the compressor as it is. -/
def feed (c : SidechainCompressor) (line : Line) (f : Frame) : Answer × SidechainCompressor :=
  match c.push line f with
  | .error e => (.error e, c)
  | .ok (block, c) => (.ok block, c)

/-- Pushes the frames of a schedule one after another: all answers, and the compressor at the
end. -/
def feedAll (c : SidechainCompressor) : List (Line × Frame) → List Answer × SidechainCompressor
  | [] => ([], c)
  | (line, f) :: schedule =>
    ((c.feed line f).1 :: ((c.feed line f).2.feedAll schedule).1,
      ((c.feed line f).2.feedAll schedule).2)

/-- The frame that an answer brings, if it brings one. -/
def blockOf : Answer → List Frame
  | .error _ => []
  | .ok block => block.toList

/-- The frames given out by a list of answers. -/
def blocks (answers : List Answer) : List Frame := answers.flatMap blockOf

/-- The frames that a schedule brings for a line in the format of the line. -/
def accepted (formats : PerLine Format) (schedule : List (Line × Frame)) (line : Line) :
    List Frame :=
  (schedule.filter fun d => d.1 = line ∧ d.2.format = formats.get line).map Prod.snd

/-- The compressor `c` has come as far as one run of the engine `e` over the first `n` samples of
both streams: it has given out what that run puts out, its engine is in the same state, and the
lines hold what lies past the span. -/
structure Tracks (e : Engine) (formats : PerLine Format) (streams : Line → List Sample) (n : Nat)
    (emitted : List Sample) (c : SidechainCompressor) : Prop where
  formats_eq : c.pairing.formats = formats
  wellFormed : c.pairing.WellFormed
  within : ∀ line, n * (formats.get line).channels ≤ (streams line).length
  engine_eq : c.engine = e.after (groups formats.sidechain.channels n (streams .sidechain))
  emitted_eq : emitted = e.output (streams .main) formats.main.channels
    (streams .sidechain) formats.sidechain.channels n
  held_eq : ∀ line, c.pairing.held line = (streams line).drop (n * (formats.get line).channels)

namespace Tracks

variable {e : Engine} {formats : PerLine Format} {streams : Line → List Sample} {n : Nat}
  {emitted : List Sample} {c : SidechainCompressor}

/-- Both streams start empty. -/
theorem start (e : Engine) (formats : PerLine Format) :
    Tracks e formats (fun _ => []) 0 []
      { engine := e, pairing := { formats, slots := ⟨none, none⟩ } } where
  formats_eq := rfl
  wellFormed := Pairing.wellFormed_empty formats
  within := fun _ => by simp
  engine_eq := rfl
  emitted_eq := rfl
  held_eq := fun line => by simp [Pairing.held_empty]

/-- A stream is the span done and what its line holds. -/
theorem length_eq (h : Tracks e formats streams n emitted c) (line : Line) :
    (streams line).length = (n + c.pairing.pending line) * (formats.get line).channels := by
  -- what the line holds is the stream without the span
  have hheld := h.wellFormed.pending_mul_channels line
  rw [h.formats_eq, h.held_eq, List.length_drop] at hheld
  have hwithin := h.within line
  rw [Nat.add_mul]
  omega

/-- The number of samples in a stream: those of the span, and those that its line holds. -/
theorem length_div_channels (h : Tracks e formats streams n emitted c)
    (hpos : ∀ line, 0 < (formats.get line).channels) (line : Line) :
    (streams line).length / (formats.get line).channels = n + c.pairing.pending line := by
  rw [h.length_eq line, Nat.mul_div_cancel _ (hpos line)]

/-- Samples that arrive past the span change nothing of what is done. -/
theorem arrive (h : Tracks e formats streams n emitted c) {q : Pairing} (more : Line → List Sample)
    (hq : q.WellFormed) (hformats : q.formats = c.pairing.formats)
    (hheld : ∀ line, q.held line = c.pairing.held line ++ more line) :
    Tracks e formats (fun line => streams line ++ more line) n emitted { c with pairing := q } where
  formats_eq := hformats.trans h.formats_eq
  wellFormed := hq
  within := by
    intro line
    rw [List.length_append]
    exact Nat.le_add_right_of_le (h.within line)
  engine_eq := by
    have hs : n * formats.sidechain.channels ≤ (streams .sidechain).length := h.within .sidechain
    rw [groups_append hs]
    exact h.engine_eq
  emitted_eq := by
    have hm : n * formats.main.channels ≤ (streams .main).length := h.within .main
    have hs : n * formats.sidechain.channels ≤ (streams .sidechain).length := h.within .sidechain
    rw [Engine.output_append hm hs]
    exact h.emitted_eq
  held_eq := by
    intro line
    rw [hheld, h.held_eq, List.drop_append_of_le_length (h.within line)]

/-- Draining goes on where the span has ended. -/
theorem drain (h : Tracks e formats streams n emitted c) {block : Option Frame}
    {c' : SidechainCompressor} (hd : Drained c block c') :
    Tracks e formats streams (n + c.ready) (emitted ++ Frame.concat block.toList) c' where
  formats_eq := hd.formats_eq.trans h.formats_eq
  wellFormed := hd.wellFormed
  within := by
    intro line
    -- the span that is drained is held by every line
    have hready : c.ready ≤ c.pairing.pending line := by
      cases line with
      | main => exact Nat.min_le_left ..
      | sidechain => exact Nat.min_le_right ..
    rw [h.length_eq line]
    exact Nat.mul_le_mul_right _ (Nat.add_le_add_left hready n)
  engine_eq := by
    rw [hd.engine_eq, h.formats_eq, h.engine_eq, h.held_eq, Engine.after_groups_add]
    rfl
  emitted_eq := by
    rw [hd.samples_eq, h.emitted_eq, h.formats_eq, h.engine_eq, h.held_eq, h.held_eq,
      Engine.output_add]
    rfl
  held_eq := by
    intro line
    rw [hd.held_eq, h.held_eq, h.formats_eq, List.drop_drop, Nat.add_mul]

/-- Once nothing is left to drain, the span is all that the streams share. -/
theorem span_eq (h : Tracks e formats streams n emitted c) (hready : c.ready = 0)
    (hpos : ∀ line, 0 < (formats.get line).channels) :
    n = min ((streams .main).length / formats.main.channels)
      ((streams .sidechain).length / formats.sidechain.channels) := by
  -- one line holds nothing, and the stream of that line ends with the span
  have hm : (streams .main).length / formats.main.channels = n + c.pairing.pending .main :=
    h.length_div_channels hpos .main
  have hs : (streams .sidechain).length / formats.sidechain.channels =
      n + c.pairing.pending .sidechain := h.length_div_channels hpos .sidechain
  unfold ready at hready
  omega

/-- What has been given out is as long as the span. -/
theorem length_emitted (h : Tracks e formats streams n emitted c) :
    emitted.length = n * formats.main.channels := by
  rw [h.emitted_eq]
  exact Engine.length_output (h.within .main) ..

/-- One call of `process?` over the span gives what was given out, and the engine as it is. -/
theorem process?_eq (h : Tracks e formats streams n emitted c)
    (hpos : ∀ line, 0 < (formats.get line).channels) :
    e.process? (streams .main) formats.main.channels (streams .sidechain)
        formats.sidechain.channels n =
      some (emitted ++ (streams .main).drop (n * formats.main.channels), c.engine) := by
  rw [h.engine_eq, h.emitted_eq]
  exact Engine.process?_eq (hpos .main) (hpos .sidechain) (h.within .main) (h.within .sidechain) e

/-- A frame that is accepted extends its stream, and the span grows as far as both streams go. -/
theorem push (h : Tracks e formats streams n emitted c)
    (hpos : ∀ line, 0 < (formats.get line).channels) {line : Line} {f : Frame}
    (hf : f.format = formats.get line) :
    ∃ block c', c.push line f = .ok (block, c') ∧ c'.ready = 0 ∧
      (∀ g ∈ block, g.isEmpty = false ∧ g.format = formats.main) ∧
      ∃ n', Tracks e formats (fun l => streams l ++ if l = line then f.samples else []) n'
        (emitted ++ Frame.concat block.toList) c' := by
  -- the frame arrives on its line, and then the pairing is drained
  obtain ⟨q, block, c', hpush, hd, hq, hformats, hheld⟩ :=
    push_of_format_eq h.wellFormed (hf.trans (congrArg (PerLine.get · line) h.formats_eq.symm))
  have harrive := h.arrive _ hq hformats hheld
  refine ⟨block, c', hpush, ?_, ?_, _, harrive.drain hd⟩
  · refine hd.ready_eq_zero hq fun l => ?_
    rw [harrive.formats_eq]
    exact hpos l
  -- a frame is given out only if the span has grown
  · intro g hg
    obtain ⟨hformat, hlength⟩ := hd.block_eq g hg
    have hready := hd.isSome_eq
    rw [Option.isSome_of_mem hg] at hready
    rw [Frame.isEmpty_eq_false_iff, ← Frame.length_pos_iff, hlength, ← harrive.formats_eq]
    exact ⟨of_decide_eq_true hready.symm, hformat⟩

/-- The streams alone decide what is given out and where the compressor stands. -/
theorem unique (h : Tracks e formats streams n emitted c) (hready : c.ready = 0) {n' : Nat}
    {emitted' : List Sample} {c' : SidechainCompressor}
    (h' : Tracks e formats streams n' emitted' c') (hready' : c'.ready = 0)
    (hpos : ∀ line, 0 < (formats.get line).channels) : emitted' = emitted ∧ c' = c := by
  -- both have come as far as the streams allow, and so equally far
  obtain rfl : n' = n := (h'.span_eq hready' hpos).trans (h.span_eq hready hpos).symm
  have hengine : c'.engine = c.engine := h'.engine_eq.trans h.engine_eq.symm
  -- the same engine after the same detector, and lines that hold the same
  have hpairing : c'.pairing = c.pairing :=
    h'.wellFormed.eq_of_held h.wellFormed (h'.formats_eq.trans h.formats_eq.symm) fun line =>
      (h'.held_eq line).trans (h.held_eq line).symm
  refine ⟨h'.emitted_eq.trans h.emitted_eq.symm, ?_⟩
  cases c
  cases c'
  subst hengine hpairing
  rfl

end Tracks

/-! ### Whole schedules -/

/-- The first frame of a schedule is the first of its stream, if it is accepted. -/
theorem concat_accepted_cons (formats : PerLine Format) (line l : Line) (f : Frame)
    (schedule : List (Line × Frame)) :
    Frame.concat (accepted formats ((line, f) :: schedule) l) =
      (if l = line ∧ f.format = formats.get line then f.samples else []) ++
        Frame.concat (accepted formats schedule l) := by
  -- on its own line, accepted or refused, and on the other line
  by_cases hl : l = line
  · subst hl
    by_cases hf : f.format = formats.get l <;> simp [accepted, hf]
  · have hl' : ¬line = l := fun h => hl h.symm
    simp [accepted, hl, hl']

namespace Tracks

variable {e : Engine} {formats : PerLine Format} {streams : Line → List Sample} {n : Nat}
  {emitted : List Sample} {c : SidechainCompressor}

/-- One frame of a schedule, accepted or not. -/
theorem feed (h : Tracks e formats streams n emitted c) (hready : c.ready = 0)
    (hpos : ∀ line, 0 < (formats.get line).channels) (line : Line) (f : Frame) :
    (c.feed line f).2.ready = 0 ∧
      (c.feed line f).1.isOk = decide (f.format = formats.get line) ∧
      (∀ g ∈ blockOf (c.feed line f).1, g.isEmpty = false ∧ g.format = formats.main) ∧
      ∃ n', Tracks e formats
        (fun l => streams l ++
          if l = line ∧ f.format = formats.get line then f.samples else []) n'
        (emitted ++ Frame.concat (blockOf (c.feed line f).1)) (c.feed line f).2 := by
  by_cases hf : f.format = formats.get line
  · -- accepted: the stream grows by the frame
    obtain ⟨block, c', hpush, hready', hblock, n', h'⟩ := h.push hpos hf
    have hfeed : c.feed line f = (.ok block, c') := by simp only [SidechainCompressor.feed, hpush]
    simp only [hfeed, blockOf, hf, and_true]
    exact ⟨hready', by rfl, by simpa using hblock, n', h'⟩
  · -- refused: neither the streams nor the compressor change
    have hne : f.format ≠ c.pairing.formats.get line := by
      rw [h.formats_eq]
      exact hf
    obtain ⟨err, herr⟩ := push_of_format_ne h.wellFormed hne
    have hfeed : c.feed line f = (.error err, c) := by simp only [SidechainCompressor.feed, herr]
    simp only [hfeed, blockOf, hf, and_false, if_false, List.append_nil, Frame.concat_nil]
    exact ⟨hready, by rfl, by simp, n, h⟩

/-- By induction on the schedule: its frames extend the streams, and the span follows. -/
theorem feedAll (h : Tracks e formats streams n emitted c) (hready : c.ready = 0)
    (hpos : ∀ line, 0 < (formats.get line).channels) (schedule : List (Line × Frame)) :
    (c.feedAll schedule).2.ready = 0 ∧
      (c.feedAll schedule).1.map Except.isOk =
        schedule.map (fun d => decide (d.2.format = formats.get d.1)) ∧
      (∀ g ∈ blocks (c.feedAll schedule).1, g.isEmpty = false ∧ g.format = formats.main) ∧
      ∃ n', Tracks e formats
        (fun l => streams l ++ Frame.concat (accepted formats schedule l)) n'
        (emitted ++ Frame.concat (blocks (c.feedAll schedule).1)) (c.feedAll schedule).2 := by
  induction schedule generalizing streams n emitted c with
  | nil =>
    refine ⟨hready, rfl, by simp [SidechainCompressor.feedAll, blocks], n, ?_⟩
    simpa [SidechainCompressor.feedAll, accepted, blocks] using h
  | cons d schedule ih =>
    obtain ⟨line, f⟩ := d
    obtain ⟨hready', hok, hblock, n', h'⟩ := h.feed hready hpos line f
    -- the rest of the schedule starts from the streams that the frame has extended
    obtain ⟨hready'', hoks, hblocks, n'', h''⟩ := ih h' hready'
    refine ⟨hready'', ?_, ?_, n'', ?_⟩
    · rw [List.map_cons, ← hok, ← hoks]
      rfl
    · intro g hg
      rcases List.mem_append.mp hg with hg | hg
      · exact hblock g hg
      · exact hblocks g hg
    · simpa [SidechainCompressor.feedAll, blocks, concat_accepted_cons] using h''

end Tracks

/-- A schedule against one run. With `n` the number of samples that the accepted streams share: a
push is refused exactly for the format of its frame; the frames given out are together the first `n`
samples of `main` after one call of `process` on a new engine, which ends in the state of that call;
each of them has the main format and is not empty; each line holds what its stream has past the
`n`-th sample; and any other schedule with the same streams comes to the same. -/
theorem feedAll_eq_process (s : Settings) (formats : PerLine Format) (c : SidechainCompressor)
    (hc : ofSettings s formats = .ok c) (schedule : List (Line × Frame)) :
    let streams := fun line => Frame.concat (accepted formats schedule line)
    let n := min ((streams .main).length / formats.main.channels)
      ((streams .sidechain).length / formats.sidechain.channels)
    let run := c.feedAll schedule
    run.1.map Except.isOk = schedule.map (fun d => decide (d.2.format = formats.get d.1)) ∧
      (∃ e out, Engine.ofSettings s (.ofNat formats.main.rate) = .ok e ∧
        e.process? (streams .main) formats.main.channels (streams .sidechain)
          formats.sidechain.channels n = some (out, run.2.engine) ∧
        Frame.concat (blocks run.1) = out.take (n * formats.main.channels)) ∧
      (∀ f ∈ blocks run.1, f.isEmpty = false ∧ f.format = formats.main) ∧
      (∀ line, run.2.pairing.pending line =
        (streams line).length / (formats.get line).channels - n) ∧
      ∀ schedule', (∀ line, Frame.concat (accepted formats schedule' line) = streams line) →
        Frame.concat (blocks (c.feedAll schedule').1) = Frame.concat (blocks run.1) ∧
          (c.feedAll schedule').2 = run.2 := by
  -- a new compressor has an engine of the settings, and lines that hold nothing
  obtain ⟨e, he, hpos, rfl⟩ := eq_of_ofSettings hc
  intro streams n run
  have hstart := Tracks.start e formats
  have hready : ready { engine := e, pairing := { formats, slots := ⟨none, none⟩ } } = 0 := rfl
  obtain ⟨hready', hoks, hblocks, k, h⟩ := hstart.feedAll hready hpos schedule
  simp only [List.nil_append] at h
  -- nothing is left to drain, so the run tracked is the one over the first `n` samples
  obtain rfl : k = n := h.span_eq hready' hpos
  refine ⟨hoks, ⟨e, _, he, h.process?_eq hpos, ?_⟩, hblocks, fun line => ?_,
    fun schedule' hsame => ?_⟩
  · exact (List.take_left' h.length_emitted).symm
  · rw [h.length_div_channels hpos line, Nat.add_sub_cancel_left]
  · -- another schedule with these streams tracks the same run
    obtain ⟨hready'', -, -, k', h'⟩ := hstart.feedAll hready hpos schedule'
    simp only [List.nil_append, hsame] at h'
    exact h.unique hready' h' hready'' hpos

/-- A stereo line with an empty frame, and a mono one with a stereo frame in between. -/
theorem feedAll_eq_process_stereo_mono :
    ∃ c, ofSettings {} ⟨⟨2, 48000⟩, ⟨1, 48000⟩⟩ = .ok c ∧
      (c.feedAll
        [(.main, ⟨2, 48000, [], by decide, by decide⟩),
          (.main, ⟨2, 48000, [⟨1⟩, ⟨2⟩, ⟨3⟩, ⟨4⟩], by decide, by decide⟩),
          (.sidechain, ⟨2, 48000, [⟨5⟩, ⟨6⟩], by decide, by decide⟩),
          (.sidechain, ⟨1, 48000, [⟨7⟩], by decide, by decide⟩)]).1.map Except.isOk =
        [true, true, false, true] :=
  ⟨_, rfl, (feedAll_eq_process {} ⟨⟨2, 48000⟩, ⟨1, 48000⟩⟩ _ rfl _).1⟩

end DynamicRange.SidechainCompressor
