import DynamicRange.Compressor
import DynamicRange.Proofs.Engine.Stream
import DynamicRange.Proofs.Pairing.Basic

/-!
# Laws of a compressor with a sidechain

A push hands its frame to the pairing and then drains it: the span that both lines hold goes through
the engine, the rest stays. Both are stated by what the lines hold, so that no later proof looks
into the slots.

## Key results

- `drain_spec`: what draining gives out, leaves behind, and does to the engine
- `push_of_format_eq`, `push_of_format_ne`: a push in terms of `drain`
-/

namespace DynamicRange.SidechainCompressor

/-- A new compressor has a new engine and a new pairing, which holds nothing. -/
theorem eq_of_ofSettings {s : Settings} {formats : PerLine Format} {c : SidechainCompressor}
    (h : ofSettings s formats = .ok c) :
    ∃ e, Engine.ofSettings s (.ofNat formats.main.rate) = .ok e ∧
      (∀ line, 0 < (formats.get line).channels) ∧
      c = { engine := e, pairing := { formats, slots := ⟨none, none⟩ } } := by
  -- pairing and engine are made one after the other, and each may be refused
  obtain ⟨p, hp, h⟩ := Result.bind_eq_ok_iff.mp h
  obtain ⟨e, he, h⟩ := Result.bind_eq_ok_iff.mp h
  have hp := Result.mapError_eq_ok_iff.mp hp
  -- nothing was refused, so both are new
  have he := Result.mapError_eq_ok_iff.mp he
  obtain rfl := Except.ok.inj h
  obtain rfl := Pairing.eq_of_ofFormats hp
  exact ⟨e, he, Pairing.channels_pos_of_ofFormats hp, rfl⟩

/-- The number of samples that both lines hold. -/
def ready (c : SidechainCompressor) : Nat :=
  min (c.pairing.pending .main) (c.pairing.pending .sidechain)

/-- What draining does. The first `c.ready` samples of both lines go through the engine; all of
them come out on the main line, in one frame, unless there are none. -/
structure Drained (c : SidechainCompressor) (block : Option Frame) (c' : SidechainCompressor) :
    Prop where
  formats_eq : c'.pairing.formats = c.pairing.formats
  wellFormed : c'.pairing.WellFormed
  /-- The engine has taken in what the sidechain held for the span. -/
  engine_eq : c'.engine = c.engine.after
    (groups c.pairing.formats.sidechain.channels c.ready (c.pairing.held .sidechain))
  /-- The samples given out are those of the engine for the span. -/
  samples_eq : Frame.concat block.toList = c.engine.output
    (c.pairing.held .main) c.pairing.formats.main.channels
    (c.pairing.held .sidechain) c.pairing.formats.sidechain.channels c.ready
  /-- The span is taken off each line. -/
  held_eq : ∀ line, c'.pairing.held line =
    (c.pairing.held line).drop (c.ready * (c.pairing.formats.get line).channels)
  /-- A frame given out has the format of the main line and the length of the span. -/
  block_eq : ∀ f ∈ block, f.format = c.pairing.formats.main ∧ f.length = c.ready
  /-- There is a frame exactly when there is a span. -/
  isSome_eq : block.isSome = decide (0 < c.ready)

/-- Nothing is drained unless both lines hold samples. -/
private theorem drained_none {c : SidechainCompressor} (hc : c.pairing.WellFormed)
    (h : c.pairing.takePair = none) : Drained c none c := by
  -- without a pair one line holds nothing, and the span is empty
  have hready : c.ready = 0 := by
    have hboth := mt hc.occupancy_eq_both_iff.mpr ((c.pairing.takePair_eq_none_iff).mp h)
    unfold ready
    omega
  refine ⟨rfl, hc, ?_, ?_, fun line => ?_, ?_, ?_⟩ <;> simp [hready]

/-- What a pair holds of a line is the front of what the line held. -/
private theorem samples_eq_take {xs ys zs : List Sample} {n : Nat} (h : xs ++ ys = zs)
    (hlen : xs.length = n) : xs = zs.take n ∧ ys = zs.drop n := by
  subst h hlen
  exact ⟨List.take_left.symm, List.drop_left.symm⟩

/-- Each half of a pair is the shared span of what its line held. -/
private theorem takePair_span {c : SidechainCompressor} (hc : c.pairing.WellFormed)
    {pair : PerLine Frame} {q : Pairing} (h : c.pairing.takePair = some (pair, q)) (line : Line) :
    (pair.get line).samples =
        (c.pairing.held line).take (c.ready * (c.pairing.formats.get line).channels) ∧
      q.held line =
        (c.pairing.held line).drop (c.ready * (c.pairing.formats.get line).channels) := by
  -- the front of a line is as long as the span, in samples of the line's channels
  obtain ⟨-, -, -, hlines⟩ := Pairing.takePair_eq_some hc h
  obtain ⟨hformat, hlength, happend⟩ := hlines line
  have hchannels : (pair.get line).channels = (c.pairing.formats.get line).channels :=
    congrArg Format.channels hformat
  refine samples_eq_take happend ?_
  rw [← Frame.length_mul_channels, hlength, hchannels, ready]

/-- A pair through the engine, in terms of what the lines held. -/
private theorem process_pair {c : SidechainCompressor} (hc : c.pairing.WellFormed)
    {pair : PerLine Frame} {q : Pairing} (h : c.pairing.takePair = some (pair, q)) :
    c.engine.process pair.main.samples pair.main.channels pair.sidechain.samples
        pair.sidechain.channels pair.main.length =
      (c.engine.output (c.pairing.held .main) c.pairing.formats.main.channels
          (c.pairing.held .sidechain) c.pairing.formats.sidechain.channels c.ready,
        c.engine.after
          (groups c.pairing.formats.sidechain.channels c.ready (c.pairing.held .sidechain))) := by
  obtain ⟨-, -, -, hlines⟩ := Pairing.takePair_eq_some hc h
  -- the samples and the channels of both halves, from what the lines held
  have hmain : pair.main.samples =
      (c.pairing.held .main).take (c.ready * c.pairing.formats.main.channels) :=
    (takePair_span hc h .main).1
  have hsidechain : pair.sidechain.samples =
      (c.pairing.held .sidechain).take (c.ready * c.pairing.formats.sidechain.channels) :=
    (takePair_span hc h .sidechain).1
  have hmc : pair.main.channels = c.pairing.formats.main.channels :=
    congrArg Format.channels (hlines .main).1
  have hsc : pair.sidechain.channels = c.pairing.formats.sidechain.channels :=
    congrArg Format.channels (hlines .sidechain).1
  have hlength : pair.main.length = c.ready := (hlines .main).2.1
  -- nothing of the main half lies past the span
  have hrest : ((c.pairing.held .main).take (c.ready * c.pairing.formats.main.channels)).drop
      (c.ready * c.pairing.formats.main.channels) = [] :=
    List.drop_eq_nil_of_le (List.length_take_le ..)
  rw [Engine.process_eq, hmain, hsidechain, hmc, hsc, hlength, Engine.output_take, groups_take,
    hrest, List.append_nil]

/-- A pair goes through the engine as a whole. -/
private theorem drained_some {c : SidechainCompressor} (hc : c.pairing.WellFormed)
    {pair : PerLine Frame} {q : Pairing} (h : c.pairing.takePair = some (pair, q)) :
    Drained c c.drain.1 c.drain.2 := by
  obtain ⟨hwf, hformats, hpos, hlines⟩ := Pairing.takePair_eq_some hc h
  -- one run of the engine over the pair, whose output takes the place of the main half
  have hdrain : c.drain = (some (pair.main.replace (c.engine.output (c.pairing.held .main)
        c.pairing.formats.main.channels (c.pairing.held .sidechain)
        c.pairing.formats.sidechain.channels c.ready)),
      { engine := c.engine.after
          (groups c.pairing.formats.sidechain.channels c.ready (c.pairing.held .sidechain))
        pairing := q }) := by
    simp only [drain, h, process_pair hc h]
  -- the main line holds the span, which its half is
  have hheld : c.ready * c.pairing.formats.main.channels ≤ (c.pairing.held .main).length := by
    rw [← hc.pending_mul_channels .main]
    exact Nat.mul_le_mul_right _ (Nat.min_le_left ..)
  have hmain : pair.main.samples.length = c.ready * c.pairing.formats.main.channels := by
    have hspan : pair.main.samples = _ := (takePair_span hc h .main).1
    rw [hspan, List.length_take, PerLine.get, Nat.min_eq_left hheld]
  rw [hdrain]
  -- the samples are as many as the main half has, so they take its place
  refine ⟨hformats, hwf, rfl, ?_, fun line => (takePair_span hc h line).2, ?_,
    (decide_eq_true hpos).symm⟩
  · have hlen := (Engine.length_output hheld c.engine (c.pairing.held .sidechain)
      c.pairing.formats.sidechain.channels).trans hmain.symm
    simp [Frame.samples_replace hlen]
  · intro f hf
    obtain rfl := Option.some.inj hf
    exact ⟨(Frame.format_replace ..).trans (hlines .main).1,
      (Frame.length_replace ..).trans (hlines .main).2.1⟩

/-- Draining gives out the span that both lines hold, and nothing else happens. -/
theorem drain_spec {c : SidechainCompressor} (hc : c.pairing.WellFormed) :
    Drained c c.drain.1 c.drain.2 := by
  -- with and without a pair
  cases h : c.pairing.takePair with
  | none =>
    have hdrain : c.drain = (none, c) := by simp only [drain, h]
    rw [hdrain]
    exact drained_none hc h
  | some r => exact drained_some hc h

/-- Draining takes the span off the number of samples that a line holds. -/
theorem Drained.pending_eq {c c' : SidechainCompressor} {block : Option Frame}
    (h : Drained c block c') (hc : c.pairing.WellFormed) {line : Line}
    (hpos : 0 < (c.pairing.formats.get line).channels) :
    c'.pairing.pending line = c.pairing.pending line - c.ready := by
  -- the samples that a line holds, counted with its channels
  apply Nat.eq_of_mul_eq_mul_right hpos
  rw [← h.formats_eq, h.wellFormed.pending_mul_channels, h.held_eq, List.length_drop,
    h.formats_eq, ← hc.pending_mul_channels, Nat.sub_mul]

/-- After draining at most one line holds samples. -/
theorem Drained.ready_eq_zero {c c' : SidechainCompressor} {block : Option Frame}
    (h : Drained c block c') (hc : c.pairing.WellFormed)
    (hpos : ∀ line, 0 < (c.pairing.formats.get line).channels) : c'.ready = 0 := by
  rw [ready, h.pending_eq hc (hpos .main), h.pending_eq hc (hpos .sidechain)]
  unfold ready
  omega

/-! ### Pushing -/

/-- A frame of the format of its line is taken in, and the pairing is drained. -/
theorem push_of_format_eq {c : SidechainCompressor} (hc : c.pairing.WellFormed) {line : Line}
    {f : Frame} (hf : f.format = c.pairing.formats.get line) :
    ∃ q block c', c.push line f = .ok (block, c') ∧ Drained { c with pairing := q } block c' ∧
      q.WellFormed ∧ q.formats = c.pairing.formats ∧
      ∀ l, q.held l = c.pairing.held l ++ if l = line then f.samples else [] := by
  -- the pairing takes the frame in, and what it then holds is drained
  obtain ⟨q, hq, hwf, hformats, hheld⟩ := Pairing.push_of_format_eq hc hf
  have hd : Drained { c with pairing := q } _ _ := drain_spec hwf
  refine ⟨q, _, _, ?_, hd, hwf, hformats, hheld⟩
  rw [push, hq]
  rfl

/-- A frame of another format is refused. -/
theorem push_of_format_ne {c : SidechainCompressor} (hc : c.pairing.WellFormed) {line : Line}
    {f : Frame} (hf : f.format ≠ c.pairing.formats.get line) : ∃ e, c.push line f = .error e := by
  obtain ⟨e, he⟩ := (Pairing.push_eq_error_iff hc line f).mpr hf
  refine ⟨e, ?_⟩
  rw [push, he]
  rfl

end DynamicRange.SidechainCompressor
