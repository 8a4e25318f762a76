import DynamicRange.Proofs.Sidechain.Schedule

/-!
# A compressor keyed by its own signal

A compressor of one stream can be fed the stream in frames of any length: it comes as far as one run
of the engine over the stream as its own detector. A compressor with a sidechain that gets one
stream on both lines makes the same run, however the lines are cut and interleaved. So both put out
the same samples and end in the same engine.

## Key results

- `Compressor.processAll_spec`: one stream, cut anywhere, against one run of the engine
- `SidechainCompressor.feedAll_of_same_stream`: one stream on both lines against that run
- `SidechainCompressor.feedAll_eq_processAll`: both compressors against each other
-/

namespace DynamicRange

/-- No sample of consecutive frames lacks a channel. -/
theorem Frame.channels_dvd_concat {format : Format} {frames : List Frame}
    (h : ∀ f ∈ frames, f.format = format) : format.channels ∣ (concat frames).length := by
  induction frames with
  | nil => exact Nat.dvd_zero _
  | cons f fs ih =>
    -- each frame is whole, and so is what the others come to
    obtain ⟨rfl, hrest⟩ := List.forall_mem_cons.mp h
    rw [concat_cons, List.length_append]
    exact Nat.dvd_add f.channels_dvd (ih hrest)

/-! ### One stream, cut anywhere -/

namespace Compressor

/-- Compresses frames one after another: the frames given out, and the compressor at the end. -/
def processAll (c : Compressor) : List Frame → List Frame × Compressor
  | [] => ([], c)
  | f :: fs => ((c.process f).1 :: ((c.process f).2.processAll fs).1,
      ((c.process f).2.processAll fs).2)

/-- A frame at the rate of the compressor leaves the rate alone. -/
theorem follow_of_rate_eq {c : Compressor} {f : Frame} (h : f.rate = c.rate) : c.follow f = c :=
  if_neg fun hne => hne.1 h

/-- A frame at the rate of the compressor goes through the engine as its own detector. -/
theorem process_of_rate_eq {c : Compressor} {f : Frame} (h : f.rate = c.rate) :
    (c.process f).1.samples =
        c.engine.output f.samples f.channels f.samples f.channels f.length ∧
      (c.process f).2 =
        { c with engine := c.engine.after (groups f.channels f.length f.samples) } := by
  have hspan : f.length * f.channels = f.samples.length := f.length_mul_channels
  -- the span is the whole frame, so nothing lies past it
  have hrest : f.samples.drop (f.length * f.channels) = [] :=
    List.drop_eq_nil_of_le (Nat.le_of_eq hspan.symm)
  have hlen := (c.engine.length_output (Nat.le_of_eq hspan) f.samples f.channels).trans hspan
  simp only [process, follow_of_rate_eq h, Engine.processInPlace_eq_process, Engine.process_eq,
    hrest, List.append_nil]
  exact ⟨Frame.samples_replace hlen, trivial⟩

/-- By induction on the frames: each goes on where the engine has stopped. -/
theorem processAll_spec {format : Format} {frames : List Frame}
    (hframes : ∀ f ∈ frames, f.format = format) (c : Compressor) (hrate : format.rate = c.rate)
    {n : Nat} (hn : n * format.channels = (Frame.concat frames).length)
    (hpos : 0 < format.channels) :
    Frame.concat (c.processAll frames).1 =
        c.engine.output (Frame.concat frames) format.channels (Frame.concat frames)
          format.channels n ∧
      (c.processAll frames).2 =
        { c with engine := c.engine.after (groups format.channels n (Frame.concat frames)) } := by
  induction frames generalizing c n with
  | nil =>
    have hzero : n * format.channels = 0 := hn
    obtain rfl : n = 0 := (Nat.mul_eq_zero.mp hzero).resolve_right (Nat.ne_of_gt hpos)
    exact ⟨rfl, rfl⟩
  | cons f fs ih =>
    obtain ⟨hformat, hrest⟩ := List.forall_mem_cons.mp hframes
    obtain ⟨hc, hr⟩ : f.channels = format.channels ∧ f.rate = format.rate :=
      ⟨congrArg Format.channels hformat, congrArg Format.rate hformat⟩
    obtain ⟨hsamples, hstate⟩ := process_of_rate_eq (hr.trans hrate)
    have hf : f.length * format.channels = f.samples.length := hc ▸ f.length_mul_channels
    -- the stream is the frame and `k` samples more
    obtain ⟨k, rfl⟩ : ∃ k, n = f.length + k := by
      refine Nat.exists_eq_add_of_le (Nat.le_of_mul_le_mul_right ?_ hpos)
      rw [hn, hf, Frame.concat_cons, List.length_append]
      exact Nat.le_add_right ..
    have hk : k * format.channels = (Frame.concat fs).length := by
      rw [Frame.concat_cons, List.length_append, Nat.add_mul, hf] at hn
      exact Nat.add_left_cancel hn
    -- the rest goes on with the engine that the frame has left
    obtain ⟨houtput, hafter⟩ := ih hrest (c.process f).2 (by rw [hstate]; exact hrate) hk
    have hle : f.length * format.channels ≤ f.samples.length := Nat.le_of_eq hf
    have hdrop : (f.samples ++ Frame.concat fs).drop (f.length * format.channels) =
        Frame.concat fs := by
      rw [hf, List.drop_left]
    -- the output of a span in two goes is that of both parts
    constructor
    · rw [processAll, Frame.concat_cons, Frame.concat_cons, hsamples, houtput, hstate,
        Engine.output_add, Engine.output_append hle hle, groups_append hle, hdrop, hc]
    · rw [processAll, Frame.concat_cons, Engine.after_groups_add, groups_append hle, hdrop]
      show ((c.process f).2.processAll fs).2 = _
      rw [hafter, hstate, hc]

end Compressor

/-! ### One stream on both lines -/

/-- Valid settings set up an engine. -/
theorem Engine.ofSettings_eq_ok {s : Settings} (hs : s.validate = .ok ()) (rate : Float32) :
    ∃ e, ofSettings s rate = .ok e := by
  rw [ofSettings, hs]
  exact ⟨_, rfl⟩

/-- An engine and a rate set up a compressor. -/
theorem Compressor.ofSettings_eq_ok {s : Settings} {rate : Nat} (hrate : rate ≠ 0) {e : Engine}
    (he : Engine.ofSettings s (.ofNat rate) = .ok e) :
    ofSettings s rate = .ok { engine := e, rate } := by
  rw [ofSettings, if_neg hrate, he]
  rfl

/-- Two lines of one format can be paired, if there are channels and a rate. -/
theorem Pairing.ofFormats_eq_ok {format : Format} (hchannels : format.channels ≠ 0)
    (hrate : format.rate ≠ 0) :
    ofFormats ⟨format, format⟩ = .ok { formats := ⟨format, format⟩, slots := ⟨none, none⟩ } := by
  have hline : ∀ line, checkLine line format = .ok () := by
    intro line
    rw [checkLine, if_neg hchannels, if_neg hrate]
  rw [ofFormats, hline, hline, if_neg (not_not_intro rfl)]
  rfl

namespace SidechainCompressor

/-- An engine and a format set up a compressor whose lines both have that format. -/
theorem ofSettings_eq_ok {s : Settings} {format : Format} (hchannels : format.channels ≠ 0)
    (hrate : format.rate ≠ 0) {e : Engine}
    (he : Engine.ofSettings s (.ofNat format.rate) = .ok e) :
    ofSettings s ⟨format, format⟩ = .ok
      { engine := e, pairing := { formats := ⟨format, format⟩, slots := ⟨none, none⟩ } } := by
  rw [ofSettings, Pairing.ofFormats_eq_ok hchannels hrate, he]
  rfl

/-- With one stream on both lines the compressor makes the run of the engine over that stream as
its own detector. -/
theorem feedAll_of_same_stream (e : Engine) {format : Format} (hpos : 0 < format.channels)
    {schedule : List (Line × Frame)} {stream : List Sample}
    (hstream : ∀ line, Frame.concat (accepted ⟨format, format⟩ schedule line) = stream) {n : Nat}
    (hn : n * format.channels = stream.length) :
    let c : SidechainCompressor :=
      { engine := e, pairing := { formats := ⟨format, format⟩, slots := ⟨none, none⟩ } }
    Frame.concat (blocks (c.feedAll schedule).1) =
        e.output stream format.channels stream format.channels n ∧
      (c.feedAll schedule).2.engine = e.after (groups format.channels n stream) := by
  intro c
  have hlines : ∀ line, 0 < ((⟨format, format⟩ : PerLine Format).get line).channels := by
    intro line
    cases line <;> exact hpos
  obtain ⟨hready, -, -, k, h⟩ := (Tracks.start e ⟨format, format⟩).feedAll rfl hlines schedule
  -- the run of the engine over what both lines bring
  simp only [List.nil_append, hstream] at h
  -- the lines bring equally many samples, so the span is the whole stream
  obtain rfl : n = k := by
    have hlen : stream.length / format.channels = n := by
      rw [← hn, Nat.mul_div_cancel _ hpos]
    rw [h.span_eq hready hlines, Nat.min_self, hlen]
  exact ⟨h.emitted_eq, h.engine_eq⟩

/-- Keyed by the main signal, a compressor with a sidechain is the compressor of one stream. With
valid settings, both can be set up for a format; one stream, brought to both lines in any frames and
in any order, then gives the same samples in total as the stream in any frames to the compressor of
one stream, and the same engine, level and meter included. Neither pushes nor frames need to be cut
alike. Underneath, the engine in place does what it does with a copy of the signal as detector,
whatever its state. -/
theorem feedAll_eq_processAll (s : Settings) (hs : s.validate = .ok ()) (format : Format)
    (hchannels : format.channels ≠ 0) (hrate : format.rate ≠ 0) (stream : List Sample)
    (schedule : List (Line × Frame))
    (hschedule : ∀ line, Frame.concat (accepted ⟨format, format⟩ schedule line) = stream)
    (frames : List Frame) (hformat : ∀ f ∈ frames, f.format = format)
    (hframes : Frame.concat frames = stream) :
    (∃ keyed plain, ofSettings s ⟨format, format⟩ = .ok keyed ∧
      Compressor.ofSettings s format.rate = .ok plain ∧
      Frame.concat (blocks (keyed.feedAll schedule).1) =
        Frame.concat (plain.processAll frames).1 ∧
      (keyed.feedAll schedule).2.engine = (plain.processAll frames).2.engine) ∧
    ∀ (e : Engine) (signal : List Sample) (channels n : Nat),
      e.processInPlace? signal channels n = e.process? signal channels signal channels n ∧
        (0 < channels → n * channels ≤ signal.length →
          (e.processInPlace? signal channels n).isSome) := by
  constructor
  · obtain ⟨e, he⟩ := Engine.ofSettings_eq_ok hs (.ofNat format.rate)
    have hpos : 0 < format.channels := Nat.pos_of_ne_zero hchannels
    refine ⟨_, _, ofSettings_eq_ok hchannels hrate he, Compressor.ofSettings_eq_ok hrate he, ?_⟩
    -- the frames are whole, so the stream is
    have hn : stream.length / format.channels * format.channels = stream.length :=
      Nat.div_mul_cancel (hframes ▸ Frame.channels_dvd_concat hformat)
    obtain ⟨hkeyed, hengine⟩ := feedAll_of_same_stream e hpos hschedule hn
    obtain ⟨hplain, hafter⟩ := Compressor.processAll_spec hformat
      { engine := e, rate := format.rate } rfl (hframes ▸ hn) hpos
    rw [hframes] at hplain hafter
    exact ⟨hkeyed.trans hplain.symm, hengine.trans (congrArg Compressor.engine hafter).symm⟩
  · intro e signal channels n
    -- both calls make the same checks and the same sweep
    have hcopy : e.processInPlace? signal channels n =
        e.process? signal channels signal channels n := by
      simp only [Engine.processInPlace?, Engine.process?, Engine.processInPlace_eq_process,
        and_self_left, and_self]
    refine ⟨hcopy, fun hpos hlen => ?_⟩
    rw [hcopy, Engine.process?_eq hpos hpos hlen hlen]
    rfl

/-- A stereo stream of three samples. The lines get it cut differently, with an empty frame and a
mono frame in between; the compressor of one stream gets it whole. -/
theorem feedAll_eq_processAll_stereo :
    let schedule : List (Line × Frame) :=
      [(.main, ⟨2, 48000, [⟨1⟩, ⟨2⟩], by decide, by decide⟩),
        (.sidechain, ⟨2, 48000, [⟨1⟩, ⟨2⟩, ⟨3⟩, ⟨4⟩], by decide, by decide⟩),
        (.main, ⟨2, 48000, [], by decide, by decide⟩),
        (.main, ⟨1, 48000, [⟨7⟩], by decide, by decide⟩),
        (.main, ⟨2, 48000, [⟨3⟩, ⟨4⟩, ⟨5⟩, ⟨6⟩], by decide, by decide⟩),
        (.sidechain, ⟨2, 48000, [⟨5⟩, ⟨6⟩], by decide, by decide⟩)]
    let frames : List Frame :=
      [⟨2, 48000, [⟨1⟩, ⟨2⟩, ⟨3⟩, ⟨4⟩, ⟨5⟩, ⟨6⟩], by decide, by decide⟩]
    (∀ line, Frame.concat (accepted ⟨⟨2, 48000⟩, ⟨2, 48000⟩⟩ schedule line) =
        Frame.concat frames) ∧
      ∃ keyed plain, ofSettings {} ⟨⟨2, 48000⟩, ⟨2, 48000⟩⟩ = .ok keyed ∧
        Compressor.ofSettings {} 48000 = .ok plain ∧
        Frame.concat (blocks (keyed.feedAll schedule).1) =
          Frame.concat (plain.processAll frames).1 ∧
        (keyed.feedAll schedule).2.engine = (plain.processAll frames).2.engine := by
  intro schedule frames
  have hschedule : ∀ line, Frame.concat (accepted ⟨⟨2, 48000⟩, ⟨2, 48000⟩⟩ schedule line) =
      Frame.concat frames := by
    intro line
    cases line <;> decide
  exact ⟨hschedule, (feedAll_eq_processAll {} rfl ⟨2, 48000⟩ (by decide) (by decide) _ schedule
    hschedule frames (by decide) rfl).1⟩

end SidechainCompressor

end DynamicRange
