import DynamicRange.Proofs.Cursor
import DynamicRange.Proofs.Sidechain.Schedule
import DynamicRange.Render

/-!
# Rendering a main stream beside its sidechain

The rendering feeds two cursors into a compressor with a sidechain, block by block, and pads the
sidechain with silence. The sidechain is only asked for what the main line is ahead, so it never
gets ahead itself: `m` main samples and `n ≤ m` sidechain samples are fed at any moment, and `n` of
them are through the engine. Each step makes `m + n` larger until both are the length of the main
stream. The sizes of the blocks do not matter.

## Key results

- `Progress`: the loop invariant, with `Progress.step` for one step
- `render_eq_process`: the rendering against one call of `Engine.process`
-/

namespace DynamicRange.Duet

open SidechainCompressor (Tracks)

/-- What has been fed to each line after `m` main samples and `n` sidechain samples. -/
def fed (main sidechain : Frame) (m n : Nat) : Line → List Sample
  | .main => main.samples.take (m * main.channels)
  | .sidechain => sidechain.padded n

/-- What has been fed to the main line, in slots. -/
theorem length_fed_main {main : Frame} {m : Nat} (h : m ≤ main.length) (sidechain : Frame)
    (n : Nat) : (fed main sidechain m n .main).length = m * main.channels := by
  rw [fed, List.length_take, Nat.min_eq_left (Frame.mul_channels_le h)]

/-- What has been fed to the sidechain, in slots. -/
theorem length_fed_sidechain (main sidechain : Frame) (m n : Nat) :
    (fed main sidechain m n .sidechain).length = n * sidechain.channels :=
  sidechain.length_padded n

/-- The rendering has come as far as one run of the engine `e` over the first `n` samples of the
main stream and of the sidechain, which silence follows. -/
structure Progress (e : Engine) (main sidechain : Frame) (n : Nat) (d : Duet) : Prop where
  main_valid : d.main.Valid
  main_stream : d.main.stream = main
  sidechain_valid : d.sidechain.Valid
  sidechain_stream : d.sidechain.stream = sidechain
  position_eq : d.sidechain.position = min n sidechain.length
  padding_eq : d.padding = n - sidechain.length
  tracks : Tracks e ⟨main.format, sidechain.format⟩ (fed main sidechain d.main.position n) n
    (Frame.concat d.done.reverse) d.compressor
  format_eq : ∀ f ∈ d.done, f.format = main.format

/-- Both lines have a channel. -/
theorem channels_pos (main sidechain : Frame) (line : Line) :
    0 < ((⟨main.format, sidechain.format⟩ : PerLine Format).get line).channels := by
  cases line with
  | main => exact main.channels_pos
  | sidechain => exact sidechain.channels_pos

/-- A new compressor beside two streams at their start. -/
theorem progress_start (e : Engine) (main sidechain : Frame) :
    Progress e main sidechain 0
      (ofStreams
        { engine := e
          pairing := { formats := ⟨main.format, sidechain.format⟩, slots := ⟨none, none⟩ } }
        main sidechain) where
  main_valid := Cursor.valid_ofFrame main
  main_stream := rfl
  sidechain_valid := Cursor.valid_ofFrame sidechain
  sidechain_stream := rfl
  position_eq := (Nat.zero_min _).symm
  padding_eq := (Nat.zero_sub _).symm
  tracks := by
    -- nothing has been fed to either line
    have hfed : fed main sidechain 0 0 = fun _ => [] := by
      funext line
      cases line <;> simp [fed]
    show Tracks e _ (fed main sidechain 0 0) 0 [] _
    rw [hfed]
    exact Tracks.start e _
  format_eq := by simp [ofStreams]

namespace Progress

variable {e : Engine} {main sidechain : Frame} {n : Nat} {d : Duet}

/-- The cursor of the main stream is not past its end. -/
theorem position_le (h : Progress e main sidechain n d) : d.main.position ≤ main.length := by
  have hle := h.main_valid.position_le
  rwa [h.main_stream] at hle

/-- The sidechain is never ahead. -/
theorem pending_sidechain (h : Progress e main sidechain n d) :
    d.compressor.pairing.pending .sidechain = 0 := by
  have hlen := h.tracks.length_eq .sidechain
  rw [length_fed_sidechain] at hlen
  have hn := Nat.eq_of_mul_eq_mul_right sidechain.channels_pos hlen
  omega

/-- The main line is ahead by what it holds. -/
theorem pending_main (h : Progress e main sidechain n d) :
    n + d.compressor.pairing.pending .main = d.main.position := by
  have hlen := h.tracks.length_eq .main
  rw [length_fed_main h.position_le] at hlen
  exact (Nat.eq_of_mul_eq_mul_right main.channels_pos hlen).symm

/-- What is asked for: main samples when nothing waits, otherwise the sidechain beside them. -/
theorem request_eq (h : Progress e main sidechain n d) :
    d.compressor.pairing.request =
      if d.main.position = n then some { line := .main, samples := none }
      else some { line := .sidechain, samples := some (d.main.position - n) } := by
  have hside := h.pending_sidechain
  have hmain := h.pending_main
  rw [h.tracks.wellFormed.request_eq]
  -- nothing waits on either line, or the main line alone is ahead
  by_cases hp : d.main.position = n
  · have hzero : d.compressor.pairing.pending .main = 0 := by omega
    simp only [hside, hzero, hp, if_true]
  · have hpos : d.compressor.pairing.pending .main ≠ 0 := by omega
    have hsub : d.main.position - n = d.compressor.pairing.pending .main := by omega
    simp only [hside, hpos, hp, if_true, if_false, hsub]

/-- A push that brings the lines to `m'` and `n'` samples is accepted, and the engine is taken
through `n'` samples. -/
theorem push (h : Progress e main sidechain n d) (line : Line) {f : Frame}
    (hf : f.format = (⟨main.format, sidechain.format⟩ : PerLine Format).get line) {m' n' : Nat}
    (hfed : ∀ l, fed main sidechain d.main.position n l ++ (if l = line then f.samples else []) =
      fed main sidechain m' n' l) (hle : n' ≤ m') (hlen : m' ≤ main.length) :
    ∃ block c', d.compressor.push line f = .ok (block, c') ∧
      Tracks e ⟨main.format, sidechain.format⟩ (fed main sidechain m' n') n'
        (Frame.concat (block.toList ++ d.done).reverse) c' ∧
      ∀ g ∈ block.toList ++ d.done, g.format = main.format := by
  -- the compressor follows what is fed; only how long its span is remains to be told
  have hchannels := channels_pos main sidechain
  obtain ⟨block, c', hpush, hready, hblock, k, hk⟩ := h.tracks.push hchannels hf
  rw [funext hfed] at hk
  have hm := hk.length_eq .main
  rw [length_fed_main hlen] at hm
  have hs := hk.length_eq .sidechain
  rw [length_fed_sidechain] at hs
  -- the span is all that the lines share, and the sidechain is not ahead
  have hspan : k = n' := by
    have hm' := Nat.eq_of_mul_eq_mul_right main.channels_pos hm
    have hs' := Nat.eq_of_mul_eq_mul_right sidechain.channels_pos hs
    unfold SidechainCompressor.ready at hready
    omega
  subst hspan
  refine ⟨block, c', hpush, ?_, ?_⟩
  -- the blocks are kept in reverse, the last one first
  · have hconcat : Frame.concat (block.toList ++ d.done).reverse =
        Frame.concat d.done.reverse ++ Frame.concat block.toList := by
      cases block <;> simp
    rw [hconcat]
    exact hk
  · intro g hg
    rcases List.mem_append.mp hg with hg | hg
    · exact (hblock g (by simpa using hg)).2
    · exact h.format_eq g hg

/-- A block of the main stream. -/
theorem push_main (h : Progress e main sidechain n d) {size : Nat} {f : Frame} {cursor : Cursor}
    (hnext : d.main.next? size = some (f, cursor)) :
    ∃ d', { d with main := cursor }.push .main f = .ok d' ∧ Progress e main sidechain n d' ∧
      d'.main.position = d.main.position + f.length := by
  obtain ⟨hvalid, hstream, hposition, hformat, -, htake⟩ := h.main_valid.next?_spec hnext
  rw [h.main_stream] at hstream hformat htake
  have hle : cursor.position ≤ main.length := by
    have hle := hvalid.position_le
    rwa [hstream] at hle
  -- nothing has been fed to the sidechain by this
  have hahead := h.pending_main
  have hfed : ∀ l, fed main sidechain d.main.position n l ++
      (if l = .main then f.samples else []) = fed main sidechain cursor.position n l := by
    intro l
    cases l with
    | main => exact htake
    | sidechain => exact List.append_nil _
  obtain ⟨block, c', hpush, htracks, hformats⟩ :=
    h.push .main hformat hfed (by omega) hle
  refine ⟨{ d with main := cursor, compressor := c', done := block.toList ++ d.done }, ?_, ?_,
    hposition⟩
  · rw [Duet.push, hpush]
    rfl
  · exact { h with
      main_valid := hvalid
      main_stream := hstream
      tracks := htracks
      format_eq := hformats }

/-- Samples of the sidechain, or of the silence after it, beside main samples that wait. -/
theorem push_sidechain (h : Progress e main sidechain n d) {f : Frame} {cursor : Cursor}
    {padding : Nat} (hformat : f.format = sidechain.format)
    (hpadded : sidechain.padded n ++ f.samples = sidechain.padded (n + f.length))
    (hle : n + f.length ≤ d.main.position) (hvalid : cursor.Valid)
    (hstream : cursor.stream = sidechain)
    (hposition : cursor.position = min (n + f.length) sidechain.length)
    (hpadding : padding = n + f.length - sidechain.length) :
    ∃ d', { d with sidechain := cursor, padding }.push .sidechain f = .ok d' ∧
      Progress e main sidechain (n + f.length) d' ∧ d'.main.position = d.main.position := by
  have hfed : ∀ l, fed main sidechain d.main.position n l ++
      (if l = .sidechain then f.samples else []) =
        fed main sidechain d.main.position (n + f.length) l := by
    -- the sidechain has moved on by the frame, or the silence after it has, and the main line stays
    intro l
    cases l with
    | main => exact List.append_nil _
    | sidechain => exact hpadded
  obtain ⟨block, c', hpush, htracks, hformats⟩ :=
    h.push .sidechain hformat hfed hle h.position_le
  refine ⟨{ d with sidechain := cursor, padding, compressor := c',
                   done := block.toList ++ d.done }, ?_, ?_, rfl⟩
  · rw [Duet.push, hpush]
    rfl
  · exact { h with
      sidechain_valid := hvalid
      sidechain_stream := hstream
      position_eq := hposition
      padding_eq := hpadding
      tracks := htracks
      format_eq := hformats }

/-- When nothing waits, the next block of the main stream is fed. -/
theorem step_main (h : Progress e main sidechain n d) (hp : d.main.position = n) {mainSize : Nat}
    (hsize : 0 < mainSize) (sidechainSize : Nat) :
    (n = main.length ∧ d.step mainSize sidechainSize = .ok none) ∨
      ∃ d', d.step mainSize sidechainSize = .ok (some d') ∧ Progress e main sidechain n d' ∧
        d.main.position < d'.main.position := by
  -- at the end of the main stream both lines have been fed to the end
  cases hnext : d.main.next? mainSize with
  | none =>
    have hend := (h.main_valid.next?_eq_none_iff mainSize).mp hnext
    rw [h.main_stream] at hend
    refine .inl ⟨hp.symm.trans hend, ?_⟩
    simp only [Duet.step, h.request_eq, if_pos hp, Option.getD_none, hnext]
  | some r =>
    obtain ⟨f, cursor⟩ := r
    obtain ⟨d', hpush, h', hposition⟩ := h.push_main hnext
    have hpos : 0 < f.length := h.main_valid.length_pos_of_next? hsize hnext
    refine .inr ⟨d', ?_, h', by omega⟩
    simp only [Duet.step, h.request_eq, if_pos hp, Option.getD_none, hnext, hpush]
    rfl

/-- When main samples wait, the sidechain beside them is fed, as far as it goes. -/
theorem step_sidechain (h : Progress e main sidechain n d) (hp : d.main.position ≠ n)
    (mainSize sidechainSize : Nat) :
    ∃ n' d', d.step mainSize sidechainSize = .ok (some d') ∧ Progress e main sidechain n' d' ∧
      d'.main.position = d.main.position ∧ n < n' := by
  have hahead := h.pending_main
  obtain ⟨k, hk⟩ : ∃ k, d.main.position = n + k := ⟨_, hahead.symm⟩
  have hwanted : d.main.position - n = k := by omega
  have hposition := h.position_eq
  have hpadding := h.padding_eq
  cases hnext : d.sidechain.next? k with
  | none =>
    have hend := (h.sidechain_valid.next?_eq_none_iff k).mp hnext
    rw [h.sidechain_stream] at hend
    -- the sidechain is at its end, and silence makes up for what is wanted
    have hpast : sidechain.length ≤ n := by omega
    have hlen : (sidechain.silenceLike k).length = k := sidechain.length_silenceLike k
    obtain ⟨d', hpush, h', hmain⟩ := h.push_sidechain (sidechain.format_silenceLike k)
      (by rw [hlen, Frame.padded_append_silence hpast]) (by omega) h.sidechain_valid
      h.sidechain_stream (by omega) (show d.padding + k = _ by omega)
    refine ⟨_, d', ?_, h', hmain, by omega⟩
    simp only [Duet.step, h.request_eq, if_neg hp, hwanted, Option.getD_some, hnext,
      h.sidechain_stream, hpush]
    rfl
  | some r =>
    obtain ⟨f, cursor⟩ := r
    obtain ⟨hvalid, hstream, hposition', hformat, hlen, htake⟩ :=
      h.sidechain_valid.next?_spec hnext
    have hpos : 0 < f.length := h.sidechain_valid.length_pos_of_next? (by omega) hnext
    rw [h.sidechain_stream] at hstream hformat hlen htake
    -- the block lies before the end of the sidechain, where no silence is read yet
    have hn : d.sidechain.position = n := by omega
    have hpadded : sidechain.padded n ++ f.samples = sidechain.padded (n + f.length) := by
      rw [Frame.padded_of_le (by omega), Frame.padded_of_le (by omega)]
      rwa [hposition', hn] at htake
    obtain ⟨d', hpush, h', hmain⟩ := h.push_sidechain hformat hpadded (by omega) hvalid
      hstream (by omega) (show d.padding = _ by omega)
    refine ⟨_, d', ?_, h', hmain, by omega⟩
    simp only [Duet.step, h.request_eq, if_neg hp, hwanted, Option.getD_some, hnext, hpush]
    rfl

/-- No step fails. It finds the end when both lines are through, and makes way otherwise. -/
theorem step (h : Progress e main sidechain n d) {mainSize : Nat} (hsize : 0 < mainSize)
    (sidechainSize : Nat) :
    (n = main.length ∧ d.step mainSize sidechainSize = .ok none) ∨
      ∃ n' d', d.step mainSize sidechainSize = .ok (some d') ∧ Progress e main sidechain n' d' ∧
        d.main.position + n < d'.main.position + n' := by
  by_cases hp : d.main.position = n
  -- the main line is fed, or the sidechain catches up with it
  · rcases h.step_main hp hsize sidechainSize with hend | ⟨d', hstep, h', hlt⟩
    · exact .inl hend
    · exact .inr ⟨n, d', hstep, h', by omega⟩
  · obtain ⟨n', d', hstep, h', hmain, hlt⟩ := h.step_sidechain hp mainSize sidechainSize
    exact .inr ⟨n', d', hstep, h', by omega⟩

/-- By induction on the samples still to be fed: the run ends, and more fuel changes nothing. -/
theorem run (h : Progress e main sidechain n d) {mainSize : Nat} (hsize : 0 < mainSize)
    (sidechainSize : Nat) {k : Nat} (hk : 2 * main.length ≤ d.main.position + n + k) :
    ∃ final, (∀ fuel, k < fuel → d.run mainSize sidechainSize fuel = .ok final) ∧
      final.step mainSize sidechainSize = .ok none ∧
      Progress e main sidechain main.length final := by
  induction k using Nat.strongRecOn generalizing n d with
  | ind k ih =>
    -- at the end the run is over whatever fuel is left
    rcases h.step hsize sidechainSize with ⟨rfl, hstep⟩ | ⟨n', d', hstep, h', hlt⟩
    · refine ⟨d, fun fuel hfuel => ?_, hstep, h⟩
      obtain ⟨fuel, rfl⟩ : ∃ k, fuel = k + 1 := ⟨fuel - 1, by omega⟩
      rw [Duet.run, hstep]
      rfl
    · -- the step has brought a sample, so less is left to be fed
      have hposition := h'.position_le
      have hahead := h'.pending_main
      obtain ⟨final, hrun, hend, hfinal⟩ := ih (k - 1) (by omega) h' (by omega)
      refine ⟨final, fun fuel hfuel => ?_, hend, hfinal⟩
      obtain ⟨fuel, rfl⟩ : ∃ k, fuel = k + 1 := ⟨fuel - 1, by omega⟩
      rw [Duet.run, hstep]
      exact hrun fuel (by omega)

/-- The output at the end is that of one call of `process?` on the whole main stream. -/
theorem join_eq (h : Progress e main sidechain main.length d) :
    e.process? main.samples main.channels (sidechain.padded main.length) sidechain.channels
        main.length = some ((main.join d.done).samples, d.compressor.engine) ∧
      (main.join d.done).format = main.format ∧ (main.join d.done).length = main.length := by
  -- nothing waits, so the main line is at its end as well
  have hposition := h.position_le
  have hahead := h.pending_main
  have hp : d.main.position = main.length := by omega
  have hwhole : fed main sidechain main.length main.length .main = main.samples := by
    rw [fed, main.length_mul_channels, List.take_length]
  have hformat : (main.join d.done).format = main.format := main.format_join h.format_eq
  have hsamples : (main.join d.done).samples = Frame.concat d.done.reverse :=
    main.samples_join h.format_eq
  have hlength : (Frame.concat d.done.reverse).length = main.length * main.channels :=
    h.tracks.length_emitted
  have hprocess := h.tracks.process?_eq (channels_pos main sidechain)
  rw [hp, hwhole, ← hsamples] at hprocess
  -- the span is the whole main stream, so nothing follows the output
  have hrest : main.samples.drop (main.length * main.channels) = [] := by
    rw [main.length_mul_channels, List.drop_length]
  -- the samples, the format and the length of what has been joined
  refine ⟨?_, hformat, ?_⟩
  · refine Eq.trans hprocess ?_
    show some (_ ++ main.samples.drop (main.length * main.channels), _) = _
    rw [hrest, List.append_nil]
  · refine Nat.eq_of_mul_eq_mul_right main.channels_pos ?_
    have hchannels : (main.join d.done).channels = main.channels :=
      congrArg Format.channels hformat
    rw [← hlength, ← hsamples, ← Frame.length_mul_channels, hchannels]

/-- Two renderings that have come to the end have the same output and engine. -/
theorem unique (h : Progress e main sidechain main.length d) {d' : Duet}
    (h' : Progress e main sidechain main.length d') :
    main.join d'.done = main.join d.done ∧ d'.compressor.engine = d.compressor.engine := by
  obtain ⟨hprocess, hformat, -⟩ := h.join_eq
  obtain ⟨hprocess', hformat', -⟩ := h'.join_eq
  obtain ⟨hsamples, hengine⟩ :=
    Prod.mk.inj (Option.some.inj (hprocess'.symm.trans hprocess))
  exact ⟨Frame.eq_of_format_of_samples (hformat'.trans hformat.symm) hsamples, hengine⟩

end Progress

/-- Rendering. For block sizes of at least one every run with fuel for two steps a main sample comes
to the same end, where there is nothing left to do; no frame is refused; the output and the engine
are those of one call of `process?` on the whole main stream beside the sidechain, which silence
follows; and the silence fed makes up for the samples that the sidechain lacks. -/
theorem render_eq_process (s : Settings) (main sidechain : Frame) (c : SidechainCompressor)
    (hc : SidechainCompressor.ofSettings s ⟨main.format, sidechain.format⟩ = .ok c) :
    ∃ e e' out, Engine.ofSettings s (.ofNat main.rate) = .ok e ∧
      e.process? main.samples main.channels (sidechain.padded main.length) sidechain.channels
        main.length = some (out.samples, e') ∧
      out.format = main.format ∧ out.length = main.length ∧
      ∀ mainSize sidechainSize, 0 < mainSize → 0 < sidechainSize →
        render c mainSize sidechainSize main sidechain =
            .ok (out, main.length - sidechain.length) ∧
          ∃ final, final.compressor.engine = e' ∧
            final.step mainSize sidechainSize = .ok none ∧
            ∀ fuel, 2 * main.length < fuel →
              (ofStreams c main sidechain).run mainSize sidechainSize fuel = .ok final := by
  obtain ⟨e, he, -, rfl⟩ := SidechainCompressor.eq_of_ofSettings hc
  have hstart := progress_start e main sidechain
  have hrun := fun mainSize sidechainSize (hsize : 0 < mainSize) =>
    hstart.run hsize sidechainSize (k := 2 * main.length) (by omega)
  -- the output for blocks of one sample, which is that for all sizes
  obtain ⟨first, -, -, hfirst⟩ := hrun 1 1 Nat.one_pos
  obtain ⟨hprocess, hformat, hlength⟩ := hfirst.join_eq
  refine ⟨e, first.compressor.engine, main.join first.done, he, hprocess, hformat, hlength, ?_⟩
  intro mainSize sidechainSize hsize _
  obtain ⟨final, hfinal, hend, h⟩ := hrun mainSize sidechainSize hsize
  obtain ⟨hjoin, hengine⟩ := hfirst.unique h
  refine ⟨?_, final, hengine, hend, hfinal⟩
  rw [render, hfinal _ (Nat.lt_succ_self _)]
  show Except.ok (main.join final.done, final.padding) = _
  rw [hjoin, h.padding_eq]

/-- A stereo stream beside a mono one that is too short. -/
theorem render_eq_process_short_sidechain :
    ∃ c out, SidechainCompressor.ofSettings {} ⟨⟨2, 48000⟩, ⟨1, 48000⟩⟩ = .ok c ∧
      render c 2 1 ⟨2, 48000, [⟨1⟩, ⟨2⟩, ⟨3⟩, ⟨4⟩, ⟨5⟩, ⟨6⟩], by decide, by decide⟩
        ⟨1, 48000, [⟨7⟩], by decide, by decide⟩ = .ok (out, 2) := by
  obtain ⟨_, _, out, _, _, _, _, h⟩ := render_eq_process {}
    ⟨2, 48000, [⟨1⟩, ⟨2⟩, ⟨3⟩, ⟨4⟩, ⟨5⟩, ⟨6⟩], by decide, by decide⟩
    ⟨1, 48000, [⟨7⟩], by decide, by decide⟩ _ rfl
  exact ⟨_, out, rfl, (h 2 1 (by decide) (by decide)).1⟩

end DynamicRange.Duet
