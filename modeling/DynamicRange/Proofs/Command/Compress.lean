import DynamicRange.Command.Audio
import DynamicRange.Proofs.Command.Console
import DynamicRange.Proofs.Settings.Agreement
import DynamicRange.Proofs.Solo
import DynamicRange.Proofs.Wav.File

/-!
# Compressing a file

All that `compress` does before it writes is to read files and to print lines, so whatever stops it
before leaves the files alone. What it writes is the stream in one frame, compressed: neither the
size of the blocks nor the name of the output makes a difference to it.

## Key results

- `compress_eq_write`: how far the command comes with readable input
- `compress_stops`: what stops it before
- `compress_cut_anywhere`: frames, blocks and stops in one statement
-/

namespace DynamicRange

namespace Command

open Console

variable {w : World} {input output : String} {source : Source} {size bits : Nat}

/-- Making the settings of a run reads files only: it ends as `buildSettings` does, in the same
world. -/
theorem exec_sourceSettings (source : Source) (w : World) :
    exec (sourceSettings source) w = ((buildSettings w.files source).mapError .failure, w) := by
  show exec (attempt id (buildSettings w.files source)) w = _
  cases buildSettings w.files source <;> rfl

/-- A file that is read gives its frame and header, and nothing is printed for it. -/
theorem exec_readAudio_ok {t : FileTree} {r : Frame × WavSpec} (h : Wav.read t input = .ok r)
    (lines : List String) : exec (readAudio input) ⟨t, lines⟩ = (.ok r, ⟨t, lines⟩) := by
  show exec (attemptAudio _ (Wav.read t input)) _ = _
  rw [h]
  rfl

/-- A file that cannot be read stops the command in the world it was in. -/
theorem exec_readAudio_error {t : FileTree} {e : AudioError} (h : Wav.read t input = .error e)
    (lines : List String) :
    ∃ stop, exec (readAudio input) ⟨t, lines⟩ = (.error stop, ⟨t, lines⟩) := by
  show ∃ stop, exec (attemptAudio _ (Wav.read t input)) _ = _
  rw [h]
  -- a failure of the file system and one of the format are reported in different words
  cases e <;> exact ⟨_, rfl⟩

/-- With readable input the command comes to the point where it writes, having printed lines. -/
theorem compress_eq_write {s : Settings} {stream : Frame} {spec : WavSpec} {c : Compressor}
    (hsize : size ≠ 0) (hbuild : buildSettings w.files source = .ok s)
    (hread : Wav.read w.files input = .ok (stream, spec))
    (hc : Compressor.ofSettings s spec.rate = .ok c) :
    ∃ lines, exec (compress input output source size bits) w =
      exec (writeAudio output (c.render size stream).1 bits) { w with lines } := by
  -- the settings are made before anything is printed
  have hsettings : exec (sourceSettings source) w = (.ok s, w) := by
    rw [exec_sourceSettings, hbuild]
    rfl
  unfold compress
  rw [if_neg hsize]
  dsimp only
  -- the command's steps in their order, up to the compressor
  rw [exec_bind_ok hsettings, exec_bind_ok (exec_say ..), exec_bind_ok (exec_readAudio_ok hread _)]
  dsimp only
  -- from the new compressor on there are only lines left to print
  rw [hc, exec_bind_ok (exec_say ..), exec_bind_ok (exec_attempt_ok ..),
    exec_bind_ok (exec_say ..), exec_bind_ok (exec_sayAll ..)]
  exact ⟨_, rfl⟩

/-- What stops the command before it writes leaves the files alone. -/
theorem compress_stops
    (h : size = 0 ∨ (∃ e, buildSettings w.files source = .error e) ∨
      (∃ e, Wav.read w.files input = .error e) ∨
      ∃ stream spec, Wav.read w.files input = .ok (stream, spec) ∧ spec.rate = 0) :
    ∃ stop lines, exec (compress input output source size bits) w =
      (.error stop, { w with lines }) := by
  unfold compress
  -- the size of the blocks is tested before any file is opened
  by_cases hsize : size = 0
  · rw [if_pos hsize]
    have hfail : exec (fail (α := PUnit) ⟨"--block-size must be at least 1", []⟩) w =
        (.error _, w) := rfl
    exact ⟨_, _, exec_bind_error hfail _⟩
  rw [if_neg hsize]
  dsimp only
  have hsettings := exec_sourceSettings source w
  cases hbuild : buildSettings w.files source with
  -- a preset or an override that does not resolve
  | error e =>
    rw [hbuild] at hsettings
    exact ⟨_, _, exec_bind_error hsettings _⟩
  | ok s =>
    rw [hbuild] at hsettings
    rw [exec_bind_ok hsettings, exec_bind_ok (exec_say ..)]
    cases hread : Wav.read w.files input with
    -- the input is missing, or it is not a file of the kind that is read
    | error e =>
      obtain ⟨stop, hstop⟩ := exec_readAudio_error hread _
      exact ⟨stop, _, exec_bind_error hstop _⟩
    | ok r =>
      obtain ⟨stream, spec⟩ := r
      -- of what can stop the command, only a rate of zero is left
      have hrate : spec.rate = 0 := by
        rw [hbuild, hread] at h
        rcases h with h | ⟨_, h⟩ | ⟨_, h⟩ | ⟨_, _, h, hrate⟩
        · exact absurd h hsize
        · exact nomatch h
        · exact nomatch h
        · obtain ⟨-, rfl⟩ := Prod.mk.inj (Except.ok.inj h)
          exact hrate
      have hc : Compressor.ofSettings s spec.rate = .error (.lines (.zeroRate .main)) := by
        rw [hrate]
        rfl
      rw [exec_bind_ok (exec_readAudio_ok hread _)]
      dsimp only
      rw [hc, exec_bind_ok (exec_say ..)]
      exact ⟨_, _, exec_bind_error (exec_attempt_error ..) _⟩

/-- A stream may be cut anywhere. Frames one after another, empty ones too, give a compressor of one
stream the samples and the state that the whole stream in one frame gives it. So with readable input
of a rate other than zero, `compress` writes one frame for all block sizes from one on: what a new
compressor with the settings makes of the whole stream, in the format and of the length of the
input. If it is stopped before it writes, by a block size of zero, by the settings, by input that
cannot be read or by its rate, the files are as they were. -/
theorem compress_cut_anywhere :
    (∀ (c : Compressor) (whole : Frame) (frames : List Frame), whole.rate = c.rate →
      (∀ f ∈ frames, f.format = whole.format) → Frame.concat frames = whole.samples →
        Frame.concat (c.processAll frames).1 = (c.process whole).1.samples ∧
          (c.processAll frames).2 = (c.process whole).2) ∧
    (∀ (t : FileTree) (input : String) (source : Source) (s : Settings) (stream : Frame)
      (spec : WavSpec), buildSettings t source = .ok s → Wav.read t input = .ok (stream, spec) →
      spec.rate ≠ 0 →
        ∃ c, Compressor.ofSettings s spec.rate = .ok c ∧
          (c.process stream).1.format = stream.format ∧
          (c.process stream).1.length = stream.length ∧
          ∀ (output : String) (size bits : Nat) (lines : List String), size ≠ 0 →
            ∃ lines', exec (compress input output source size bits) ⟨t, lines⟩ =
              exec (writeAudio output (c.process stream).1 bits) ⟨t, lines'⟩) ∧
    ∀ (w : World) (input output : String) (source : Source) (size bits : Nat),
      (size = 0 ∨ (∃ e, buildSettings w.files source = .error e) ∨
        (∃ e, Wav.read w.files input = .error e) ∨
        ∃ stream spec, Wav.read w.files input = .ok (stream, spec) ∧ spec.rate = 0) →
          ∃ stop w', exec (compress input output source size bits) w = (.error stop, w') ∧
            w'.files = w.files := by
  refine ⟨fun c whole frames => Compressor.processAll_eq_process, ?_, ?_⟩
  · intro t input source s stream spec hbuild hread hrate
    have hs : s.validate = .ok () :=
      -- settings that a run accepts are valid, so that a compressor is made with them
      (Settings.validate_eq_ok_iff s).mpr (Settings.valid_of_resolved (.inr ⟨t, source, hbuild⟩))
    obtain ⟨e, he⟩ := Engine.ofSettings_eq_ok hs (.ofNat spec.rate)
    have hc := Compressor.ofSettings_eq_ok hrate he
    -- the frame has the rate of the header, which is the compressor's
    have hstream : stream.rate = spec.rate := congrArg Format.rate (Wav.format_of_read hread)
    refine ⟨_, hc, Compressor.format_process .., Compressor.length_process .., ?_⟩
    intro output size bits lines hsize
    -- blocks of any size render to what the whole stream is processed to
    rw [← Compressor.render_fst_eq (c := { engine := e, rate := spec.rate }) hstream
      (Nat.pos_of_ne_zero hsize)]
    exact compress_eq_write hsize hbuild hread hc
  · intro w input output source size bits h
    obtain ⟨stop, lines, hstop⟩ := compress_stops h
    exact ⟨stop, _, hstop, rfl⟩

/-- A file with two samples. -/
private def shortFile : List UInt8 := Wav.encode { channels := 1 } [⟨0x3f000000⟩, ⟨0xbf000000⟩]

/-- A working folder with the file. -/
private def shortFileTree : FileTree where
  home := []
  nodes := [(["in.wav"], .file shortFile)]

/-- The file is found under its name. -/
private theorem find_shortFile : shortFileTree.find "in.wav" = .ok (.file shortFile) := by
  have hnull : "in.wav".contains '\x00' = false := by
    rw [String.contains_char_eq]
    decide
  have hslash : "in.wav".startsWith "/" = false := by decide +kernel
  unfold FileTree.find FileTree.route
  rw [hnull, hslash]
  rfl

/-- The file is read, and its rate is not zero. -/
private theorem exists_read_shortFile :
    ∃ stream spec, Wav.read shortFileTree "in.wav" = .ok (stream, spec) ∧ spec.rate ≠ 0 := by
  unfold Wav.read FileTree.readBytes
  rw [find_shortFile]
  exact ⟨_, _, rfl, by decide⟩

/-- A stereo stream cut into frames of one, zero and two samples; the file in blocks of one sample
and of 512, which the default compressor makes the same frame of; and a block size of zero. -/
theorem compress_cut_anywhere_short :
    (∃ c, Compressor.ofSettings {} 48000 = .ok c ∧
      Frame.concat (c.processAll
          [⟨2, 48000, [⟨1⟩, ⟨2⟩], by decide, by decide⟩, ⟨2, 48000, [], by decide, by decide⟩,
            ⟨2, 48000, [⟨3⟩, ⟨4⟩, ⟨5⟩, ⟨6⟩], by decide, by decide⟩]).1 =
        (c.process ⟨2, 48000, [⟨1⟩, ⟨2⟩, ⟨3⟩, ⟨4⟩, ⟨5⟩, ⟨6⟩], by decide, by decide⟩).1.samples) ∧
      (∃ stream spec c lines lines', Wav.read shortFileTree "in.wav" = .ok (stream, spec) ∧
        Compressor.ofSettings {} spec.rate = .ok c ∧
        exec (compress "in.wav" "out.wav" ⟨none, []⟩ 1 32) ⟨shortFileTree, []⟩ =
          exec (writeAudio "out.wav" (c.process stream).1 32) ⟨shortFileTree, lines⟩ ∧
        exec (compress "in.wav" "out.wav" ⟨none, []⟩ 512 32) ⟨shortFileTree, []⟩ =
          exec (writeAudio "out.wav" (c.process stream).1 32) ⟨shortFileTree, lines'⟩) ∧
      ∃ stop w', exec (compress "in.wav" "out.wav" ⟨none, []⟩ 0 32) ⟨shortFileTree, []⟩ =
          (.error stop, w') ∧ w'.files = shortFileTree := by
  obtain ⟨hcut, hblocks, hstop⟩ := compress_cut_anywhere
  -- each part at a concrete input: the cut stream, the block of size zero, and the file
  refine ⟨⟨_, rfl, (hcut _ _ _ rfl (by decide) rfl).1⟩, ?_, hstop _ _ _ _ _ _ (.inl rfl)⟩
  obtain ⟨stream, spec, hread, hrate⟩ := exists_read_shortFile
  obtain ⟨c, hc, -, -, hwritten⟩ :=
    hblocks shortFileTree "in.wav" ⟨none, []⟩ {} stream spec rfl hread hrate
  obtain ⟨lines, hone⟩ := hwritten "out.wav" 1 32 [] (by decide)
  obtain ⟨lines', hmany⟩ := hwritten "out.wav" 512 32 [] (by decide)
  exact ⟨stream, spec, c, lines, lines', hread, hc, hone, hmany⟩

end Command

end DynamicRange
