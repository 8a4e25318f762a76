import DynamicRange.Proofs.Files
import DynamicRange.Proofs.Groups
import DynamicRange.Proofs.Wav.Header
import DynamicRange.Proofs.Wav.Sample

/-!
# Files of samples are read as they are written

A file that is written is read with the channels and the rate of the frame, and with the samples
that its depth keeps: floats as they are, and integers exactly if they are those of the depth. So a
file of integers can be read and written again and again without a change.

## Key results

- `Wav.read_of_write`: what is read of a file that has been written
- `Wav.stored_of_mem_read`: what has been read of a file is kept by its depth
- `Wav.codec_agrees`: the integers of a depth, the order and the error, and the files
-/

namespace DynamicRange

open Binary

/-- What a depth keeps of a sample. -/
def stored (bits : ℕ) (x : Sample) : Sample :=
  match fullScale? bits with
  | some scale =>
    if bits = 32 then x else .ofValue (decodeInteger scale (encodeInteger scale x.value))
  | none => x

/-- Floats are kept as they are. -/
theorem stored_float (x : Sample) : stored 32 x = x := rfl

/-- Of an integer depth, a sample is kept as the one of its integer. -/
theorem stored_integer {bits : ℕ} {scale : Float32} (hbits : bits ≠ 32)
    (hscale : fullScale? bits = some scale) (x : Sample) :
    stored bits x = .ofValue (decodeInteger scale (encodeInteger scale x.value)) := by
  simp only [stored, hscale, if_neg hbits]

/-- The number of a sample that has been made of one. -/
theorem Sample.value_ofValue (x : Float32) : (ofValue x).value = x := Float32.ofBits_toBits x

/-! ### Samples in bytes -/

/-- The bytes of an integer sample are those of its integer. -/
theorem sampleBytes_integer {bits : ℕ} (hbits : bits = 16 ∨ bits = 24) {scale : Float32}
    (hscale : fullScale? bits = some scale) (x : Sample) :
    ∃ m < 256 ^ (bits / 8), sampleBytes bits x = Bytes.ofNat (bits / 8) m ∧
      Bytes.signed bits m = encodeInteger scale x.value := by
  -- the integer is in the range of the depth, so two's complement keeps it
  obtain ⟨hlo, hhi⟩ := (isFullScale_of_integer hbits hscale).encodeInteger_mem x.value
  refine ⟨(encodeInteger scale x.value % (1 <<< bits : ℕ)).toNat, ?_, ?_, ?_⟩
  -- the remainder by the width is what the bytes hold
  · have hwidth : 256 ^ (bits / 8) = 1 <<< bits := by
      rcases hbits with rfl | rfl <;> rfl
    have hpos : 0 < 1 <<< bits := by rw [← hwidth]; positivity
    have hlt := Int.emod_lt_of_pos (encodeInteger scale x.value) (Int.natCast_pos.mpr hpos)
    have hnonneg := Int.emod_nonneg (encodeInteger scale x.value)
      (Int.natCast_ne_zero.mpr hpos.ne')
    omega
  · simp only [sampleBytes, hscale]
    rw [if_neg (by omega)]
  -- the integer that is read back is the one that was written
  · obtain ⟨n, rfl⟩ : ∃ n, bits = n + 1 := ⟨bits - 1, by omega⟩
    exact Bytes.signed_emod hlo hhi

/-- The bits of a float sample. -/
theorem toNat_sampleBytes_float (x : Sample) : Bytes.toNat (sampleBytes 32 x) = x.bits.toNat := by
  have hlt : x.bits.toNat < 256 ^ 4 := x.bits.toNat_lt
  show Bytes.toNat (Bytes.ofNat 4 x.bits.toNat) = _
  rw [Bytes.toNat_ofNat, Nat.mod_eq_of_lt hlt]

namespace WavSpec.Fits

variable {s : WavSpec}

/-! ### The data -/

/-- Each depth that can be written has a scale. -/
theorem exists_scale (h : s.Fits) :
    ∃ scale, (s.layout h.channels_pos).scale? = some scale := by
  have hdepth : (s.layout h.channels_pos).bits = s.bits := rfl
  rw [WavLayout.scale?, hdepth]
  split
  -- integers have the scale of their depth
  · rcases h.bits with hb | hb | hb <;> rw [hb] <;> exact ⟨_, rfl⟩
  -- floats are not scaled
  · exact ⟨1, rfl⟩

/-- The bytes of a sample, and what is read of them. -/
theorem sample_sampleBytes (h : s.Fits) {scale : Float32}
    (hscale : (s.layout h.channels_pos).scale? = some scale) (x : Sample) :
    (sampleBytes s.bits x).length = s.bits / 8 ∧
      (s.layout h.channels_pos).sample scale (sampleBytes s.bits x) = .ok (stored s.bits x) := by
  have hwidth : (s.layout h.channels_pos).width = s.bits / 8 := rfl
  have hdepth : (s.layout h.channels_pos).bits = s.bits := rfl
  -- the depth tells the encoding, and each encoding has its own bytes
  by_cases hfloat : s.bits = 32
  · have hencoding : (s.layout h.channels_pos).encoding = .float := if_pos hfloat
    rw [hfloat]
    refine ⟨rfl, ?_⟩
    simp only [WavLayout.sample, hencoding, hwidth, hdepth, hfloat, toNat_sampleBytes_float]
    have hbits : x.bits.toNat.toUInt32 = x.bits := UInt32.ofNat_toNat
    have hread : WavLayout.floatOf (32 / 8) 32 x.bits.toNat = .ok x := by
      rw [WavLayout.floatOf, if_pos ⟨rfl, rfl⟩, hbits]
    exact Result.bind_eq_ok_iff.mpr ⟨x, hread, rfl⟩
  -- the bytes of an integer are those of a number, and this number is read as the integer
  · have hencoding : (s.layout h.channels_pos).encoding = .integer := if_neg hfloat
    have hbits : s.bits = 16 ∨ s.bits = 24 := by
      have := h.bits
      omega
    have hscale' : fullScale? s.bits = some scale := by
      rwa [WavLayout.scale?, hencoding] at hscale
    obtain ⟨m, hm, hbytes, hsigned⟩ := sampleBytes_integer hbits hscale' x
    have hinteger : WavLayout.integerOf (s.bits / 8) s.bits m = .ok (Bytes.signed s.bits m) := by
      rcases hbits with hb | hb <;> rw [hb] <;> rfl
    rw [stored_integer hfloat hscale', hbytes]
    refine ⟨Bytes.length_ofNat .., ?_⟩
    simp only [WavLayout.sample, hencoding, hwidth, hdepth, Bytes.toNat_ofNat,
      Nat.mod_eq_of_lt hm, hinteger, hsigned, Bytes.length_ofNat]
    exact Result.bind_eq_ok_iff.mpr ⟨_, rfl, if_neg (Nat.lt_irrefl _)⟩

/-- The data take as many bytes as their samples. -/
theorem length_data (h : s.Fits) (xs : List Sample) :
    (xs.flatMap (sampleBytes s.bits)).length = xs.length * (s.bits / 8) := by
  obtain ⟨scale, hscale⟩ := h.exists_scale
  rw [List.length_flatMap, List.map_congr_left fun x _ => (h.sample_sampleBytes hscale x).1]
  simp

/-- The data are read as what the depth keeps. -/
theorem samples_flatMap (h : s.Fits) (xs : List Sample) :
    (s.layout h.channels_pos).samples xs.length (xs.flatMap (sampleBytes s.bits)) =
      .ok (xs.map (stored s.bits)) := by
  obtain ⟨scale, hscale⟩ := h.exists_scale
  -- as many samples are tried as have been written
  have hdiv : (xs.flatMap (sampleBytes s.bits)).length / (s.bits / 8) = xs.length := by
    rw [h.length_data, Nat.mul_div_cancel _ h.width_pos]
  have htried : min xs.length (xs.length + 1) = xs.length := Nat.min_eq_left (Nat.le_succ _)
  have hwidth : (s.layout h.channels_pos).width = s.bits / 8 := rfl
  simp only [WavLayout.samples, hscale, hwidth, hdiv, htried]
  have hread : xs.mapM ((s.layout h.channels_pos).sample scale ∘ sampleBytes s.bits) =
      .ok (xs.map (stored s.bits)) :=
    Result.mapM_eq_ok fun x _ => (h.sample_sampleBytes hscale x).2
  -- the bytes are cut where one sample ends and the next begins
  rw [groups_flatMap fun x _ => (h.sample_sampleBytes hscale x).1, List.mapM_map, hread]
  rfl

/-- The file is read as its header, and the data are left. -/
theorem read_encode (h : s.Fits) {xs : List Sample} (hdvd : s.channels ∣ xs.length)
    (hlength : xs.length * (s.bits / 8) < 2 ^ 32) :
    WavHeader.read (Wav.encode s xs) =
      .ok ({ layout := s.layout h.channels_pos, count := xs.length },
        xs.flatMap (sampleBytes s.bits)) := by
  -- there are more bytes than chunks
  have hfuel : 2 ≤ (Wav.encode s xs).length := by
    simp [Wav.encode, Bytes.ofText]
  have hreads := h.reads_header hdvd hlength
    (Bytes.ofText "WAVE" ++ Wav.formatChunk s ++ Bytes.ofText "data" ++
      Bytes.ofNat 4 (xs.length * (s.bits / 8)) ++ xs.flatMap (sampleBytes s.bits)).length hfuel
    (xs.flatMap (sampleBytes s.bits))
  -- the length of the file, which bounds the chunks, is that of the bytes after it
  rw [WavHeader.read, ← hreads]
  congr 1
  simp only [Wav.encode, h.length_data, List.append_assoc]

end WavSpec.Fits

namespace Wav

/-! ### Files -/

/-- The fields of a header can tell how many bytes a sample of all channels takes, and how many the
data take. -/
structure HasRoom (f : Frame) (bits : ℕ) : Prop where
  alignment_lt : bits / 8 * f.channels < 2 ^ 16
  data_lt : f.samples.length * (bits / 8) < 2 ^ 32

/-- The frame of what a depth keeps. -/
def storedFrame (f : Frame) (bits : ℕ) : Frame :=
  { f with
    samples := f.samples.map (stored bits)
    channels_dvd := by
      rw [List.length_map]
      exact f.channels_dvd }

variable {t t' : FileTree} {path : String} {f : Frame} {bits : ℕ}

/-- What has to hold for a frame to be written, and what is written. -/
theorem fits_of_write (h : write t path f bits = (t', .ok ())) (hroom : HasRoom f bits) :
    WavSpec.Fits { channels := f.channels, rate := f.rate, bits } ∧
      ∃ created : FileTree, created.write path
        (encode { channels := f.channels, rate := f.rate, bits } f.samples) = .ok t' := by
  -- the depth and the channels are looked at first, then the file is created, then the rate
  unfold write at h
  split at h
  · exact nomatch (Prod.mk.inj h).2
  next hbits =>
    split at h
    · exact nomatch (Prod.mk.inj h).2
    next hchannels =>
      simp only at h
      split at h
      · exact nomatch (Prod.mk.inj h).2
      next created _ =>
        split at h
        · exact nomatch (Prod.mk.inj h).2
        next hrate =>
          split at h
          next hwritten =>
            obtain rfl := (Prod.mk.inj h).1
            -- every condition that could have refused the frame has failed
            have hdepth : bits = 16 ∨ bits = 24 ∨ bits = 32 := by omega
            obtain ⟨hpos, hbyteRate⟩ := not_or.mp hrate
            exact ⟨⟨hdepth, f.channels_pos, Nat.lt_of_not_le hchannels, Nat.pos_of_ne_zero hpos,
                Nat.lt_of_not_le hbyteRate, hroom.alignment_lt⟩, created, hwritten⟩
          · exact nomatch (Prod.mk.inj h).2

/-- What holds of a frame that fits is enough, if its file can be created. -/
theorem exists_write (f : Frame) (bits : ℕ) {created : FileTree}
    (hcreated : t.write path [] = .ok created)
    (h : WavSpec.Fits { channels := f.channels, rate := f.rate, bits }) :
    ∃ t', write t path f bits = (t', .ok ()) := by
  obtain ⟨t', hwritten⟩ := FileTree.exists_write_of_write hcreated
    (encode { channels := f.channels, rate := f.rate, bits } f.samples)
  have hdepth : ¬(bits ≠ 16 ∧ bits ≠ 24 ∧ bits ≠ 32) := by
    have : bits = 16 ∨ bits = 24 ∨ bits = 32 := h.bits
    omega
  have hchannels : ¬1 <<< 16 ≤ f.channels := Nat.not_le_of_lt h.channels_lt
  have hrate : ¬(f.rate = 0 ∨ 1 <<< 32 ≤ f.rate * (bits / 8) * f.channels) :=
    not_or.mpr ⟨Nat.ne_of_gt h.rate_pos, Nat.not_le_of_lt h.byteRate_lt⟩
  refine ⟨t', ?_⟩
  unfold write
  -- none of the conditions refuses the frame
  rw [if_neg hdepth, if_neg hchannels]
  simp only [hcreated, hwritten, if_neg hrate]

/-- What has been written is read, as far as the depth keeps it. -/
theorem read_of_write (h : write t path f bits = (t', .ok ())) (hroom : HasRoom f bits) :
    read t' path = .ok (storedFrame f bits, { channels := f.channels, rate := f.rate, bits }) := by
  obtain ⟨hfits, created, hwritten⟩ := fits_of_write h hroom
  have hbytes := FileTree.readBytes_of_write hwritten
  have hheader := hfits.read_encode f.channels_dvd hroom.data_lt
  have hframe : Frame.ofSamples (f.samples.map (stored bits)) f.channels f.rate f.channels_pos =
      storedFrame f bits := by
    -- no sample lacks a channel, so none is left out
    have hwhole : (f.samples.map (stored bits)).length % f.channels = 0 :=
      Nat.mod_eq_zero_of_dvd (storedFrame f bits).channels_dvd
    refine Frame.ext rfl rfl ?_
    show (f.samples.map (stored bits)).take _ = f.samples.map (stored bits)
    rw [hwhole, Nat.sub_zero, List.take_length]
  -- the file is there, its header is its own, and its data are the samples
  refine Result.bind_eq_ok_iff.mpr ⟨_, Result.mapError_eq_ok_iff.mpr hbytes, ?_⟩
  refine Result.bind_eq_ok_iff.mpr ⟨_, Result.mapError_eq_ok_iff.mpr hheader, ?_⟩
  refine Result.bind_eq_ok_iff.mpr ⟨_, hfits.samples_flatMap f.samples, ?_⟩
  rw [← hframe]
  rfl

/-- A file that can be read has the format that its header tells. -/
theorem format_of_read {spec : WavSpec} (h : read t path = .ok (f, spec)) :
    f.format = spec.format := by
  unfold read at h
  -- the frame and the description are both made of one header
  obtain ⟨file, -, h⟩ := Result.bind_eq_ok_iff.mp h
  obtain ⟨⟨header, data⟩, -, h⟩ := Result.bind_eq_ok_iff.mp h
  obtain ⟨samples, -, h⟩ := Result.bind_eq_ok_iff.mp h
  obtain ⟨rfl, rfl⟩ := Prod.mk.inj (Except.ok.inj h)
  rfl

/-- The header is that of the file, if both can be read. -/
theorem readHeader_of_read {file data : List UInt8} {header : WavHeader}
    (hfile : t.readBytes path = .ok file) (hheader : WavHeader.read file = .ok (header, data)) :
    readHeader t path = .ok header :=
  Result.bind_eq_ok_iff.mpr ⟨file, Result.mapError_eq_ok_iff.mpr hfile,
    Result.bind_eq_ok_iff.mpr ⟨_, Result.mapError_eq_ok_iff.mpr hheader, rfl⟩⟩

/-- What has been read of a file is what its header makes of some of its bytes. -/
theorem sample_of_mem_read {spec : WavSpec} (h : read t path = .ok (f, spec)) {x : Sample}
    (hx : x ∈ f.samples) :
    ∃ header scale bytes, readHeader t path = .ok header ∧ spec.bits = header.layout.bits ∧
      header.layout.scale? = some scale ∧ bytes.length ≤ header.layout.width ∧
      header.layout.sample scale bytes = .ok x := by
  obtain ⟨file, hfile, h⟩ := Result.bind_eq_ok_iff.mp h
  obtain ⟨⟨header, data⟩, hheader, h⟩ := Result.bind_eq_ok_iff.mp h
  obtain ⟨samples, hsamples, h⟩ := Result.bind_eq_ok_iff.mp h
  obtain ⟨rfl, rfl⟩ := Prod.mk.inj (Except.ok.inj h)
  -- a sample of the frame is one that was read of the data
  have hx : x ∈ samples := List.mem_of_mem_take hx
  have hread := readHeader_of_read (Result.mapError_eq_ok_iff.mp hfile)
    (Result.mapError_eq_ok_iff.mp hheader)
  unfold WavLayout.samples at hsamples
  split at hsamples
  · exact nomatch hsamples
  next scale hscale =>
    -- each sample is read of one group of bytes
    obtain ⟨bytes, hbytes, hsample⟩ :=
      Result.exists_of_mem_mapM (Result.mapError_eq_ok_iff.mp hsamples) hx
    exact ⟨header, scale, bytes, hread, rfl, hscale, length_le_of_mem_groups hbytes, hsample⟩

/-- The integers of a depth. -/
theorem integerOf_mem {width bits n : ℕ} {k : ℤ} (hn : n < 256 ^ width)
    (h : WavLayout.integerOf width bits n = .ok k) :
    -2 ^ (bits - 1) ≤ k ∧ k ≤ 2 ^ (bits - 1) - 1 := by
  unfold WavLayout.integerOf at h
  split at h
  -- 8 bits are not in two's complement
  · obtain rfl := Except.ok.inj h
    omega
  -- 16 and 24 bits, four bytes with 24 bits, and 32 bits
  · exact Except.ok.inj h ▸ Bytes.signed_mem 15 n
  · exact Except.ok.inj h ▸ Bytes.signed_mem 23 n
  · exact Except.ok.inj h ▸ Bytes.signed_mem 23 n
  · exact Except.ok.inj h ▸ Bytes.signed_mem 31 n
  · exact nomatch h

/-- A sample of integers is that of an integer of the depth. -/
theorem integer_of_sample {l : WavLayout} {scale : Float32} {bytes : List UInt8} {x : Sample}
    (hencoding : l.encoding = .integer) (hlength : bytes.length ≤ l.width)
    (h : l.sample scale bytes = .ok x) :
    ∃ k : ℤ, (-2 ^ (l.bits - 1) ≤ k ∧ k ≤ 2 ^ (l.bits - 1) - 1) ∧
      x = .ofValue (decodeInteger scale k) := by
  unfold WavLayout.sample at h
  simp only [hencoding] at h
  obtain ⟨y, hy, h⟩ := Result.bind_eq_ok_iff.mp h
  obtain ⟨k, hk, rfl⟩ := Result.map_eq_ok_iff.mp hy
  -- the bytes of a sample hold no number beyond their count
  have hlt : Bytes.toNat bytes < 256 ^ l.width :=
    (Bytes.toNat_lt bytes).trans_le (Nat.pow_le_pow_right (by decide) hlength)
  refine ⟨k, integerOf_mem hlt hk, ?_⟩
  -- bytes that are left over would have been refused
  split at h
  · exact nomatch h
  · exact (Except.ok.inj h).symm

/-- Floats have 32 bits. -/
theorem encoding_of_sample {l : WavLayout} {scale : Float32} {bytes : List UInt8} {x : Sample}
    (hbits : l.bits ≠ 32) (h : l.sample scale bytes = .ok x) : l.encoding = .integer := by
  unfold WavLayout.sample at h
  simp only at h
  split at h
  -- an integer, or a float, which has 32 bits
  next hencoding => exact hencoding
  next =>
    obtain ⟨y, hy, -⟩ := Result.bind_eq_ok_iff.mp h
    unfold WavLayout.floatOf at hy
    split at hy
    · omega
    · exact nomatch hy

/-- What has been read of a file of integers is kept by its depth. -/
theorem stored_of_mem_read {spec : WavSpec} (h : read t path = .ok (f, spec))
    (hbits : spec.bits = 16 ∨ spec.bits = 24) {x : Sample} (hx : x ∈ f.samples) :
    stored spec.bits x = x := by
  obtain ⟨header, scale, bytes, -, hspec, hscale, hlength, hsample⟩ := sample_of_mem_read h hx
  rw [hspec] at hbits ⊢
  have hencoding := encoding_of_sample (by omega) hsample
  -- the sample is one of an integer, and this integer comes back
  obtain ⟨k, ⟨hlo, hhi⟩, rfl⟩ := integer_of_sample hencoding hlength hsample
  have hscale : fullScale? header.layout.bits = some scale := by
    rwa [WavLayout.scale?, hencoding] at hscale
  rw [stored_integer (by omega) hscale, Sample.value_ofValue,
    (isFullScale_of_integer hbits hscale).encodeInteger_decodeInteger hlo hhi]

/-! ### There and back -/

/-- A frame of floats is kept as it is. -/
theorem storedFrame_float (f : Frame) : storedFrame f 32 = f := by
  refine Frame.ext rfl rfl ?_
  show f.samples.map (stored 32) = f.samples
  rw [List.map_congr_left fun x _ => stored_float x, List.map_id']

/-- What has been read of a file of integers is the same after it has been written with its depth
and read again. -/
theorem read_of_rewrite {spec : WavSpec} {u : FileTree} {target : String}
    (hread : read t path = .ok (f, spec)) (hbits : spec.bits = 16 ∨ spec.bits = 24)
    (h : write u target f spec.bits = (t', .ok ())) (hroom : HasRoom f spec.bits) :
    read t' target = .ok (f, spec) := by
  -- what is written has the format of what was read, and the same samples
  have hformat := format_of_read hread
  have hspec :
      ({ channels := f.channels, rate := f.rate, bits := spec.bits } : WavSpec) = spec := by
    rw [show f.channels = spec.channels from congrArg Format.channels hformat,
      show f.rate = spec.rate from congrArg Format.rate hformat]
  have hframe : storedFrame f spec.bits = f := by
    -- the depth keeps each sample, as each is one of an integer
    refine Frame.ext rfl rfl ?_
    show f.samples.map (stored spec.bits) = f.samples
    rw [List.map_congr_left fun x hx => stored_of_mem_read hread hbits hx, List.map_id']
  rw [read_of_write h hroom, hspec, hframe]

/-- Integer samples of 16 or 24 bits agree in both directions. All integers of the depth come back
from their samples; every float has an integer of the depth, which is zero for NaN and does not
decrease as the float increases; and between -1 and 1 the sample of that integer is off by less than
a step. These are the samples that are read of a file that has been written, so what has been read
of a file of integers is reproduced with its depth. Of a file of floats the frame itself is read.
Files are meant whose header has room for the numbers of the frame. -/
theorem codec_agrees :
    (∀ bits, bits = 16 ∨ bits = 24 → ∃ scale, fullScale? bits = some scale ∧
      (∀ ks : List ℤ, (∀ k ∈ ks, -2 ^ (bits - 1) ≤ k ∧ k ≤ 2 ^ (bits - 1) - 1) →
        (ks.map (decodeInteger scale)).map (encodeInteger scale) = ks) ∧
      (∀ x, -2 ^ (bits - 1) ≤ encodeInteger scale x ∧
        encodeInteger scale x ≤ 2 ^ (bits - 1) - 1) ∧
      (∀ x : Float32, x.isNaN = true → encodeInteger scale x = 0) ∧
      (∀ x y : Float32, x ≤ y → encodeInteger scale x ≤ encodeInteger scale y) ∧
      (∀ x : Float32, -1 < x → x < 1 →
        |value (decodeInteger scale (encodeInteger scale x)) - value x| < 1 / 2 ^ (bits - 1)) ∧
      ∀ t path f t', write t path f bits = (t', .ok ()) → HasRoom f bits →
        ∃ g, read t' path = .ok (g, { channels := f.channels, rate := f.rate, bits }) ∧
          g.samples = f.samples.map fun x =>
            .ofValue (decodeInteger scale (encodeInteger scale x.value))) ∧
      (∀ t path f spec, read t path = .ok (f, spec) → spec.bits = 16 ∨ spec.bits = 24 →
        ∀ u target u', write u target f spec.bits = (u', .ok ()) → HasRoom f spec.bits →
          read u' target = .ok (f, spec)) ∧
      ∀ t path f t', write t path f 32 = (t', .ok ()) → HasRoom f 32 →
        read t' path = .ok (f, { channels := f.channels, rate := f.rate, bits := 32 }) := by
  refine ⟨fun bits hbits => ?_, fun t path f spec hread hbits u target u' h hroom =>
    read_of_rewrite hread hbits h hroom, fun t path f t' h hroom => ?_⟩
  -- the integers of a depth
  · obtain ⟨scale, hscale, hfull⟩ : ∃ scale, fullScale? bits = some scale ∧
        IsFullScale scale (bits - 1) := exists_fullScale (by omega) (by omega)
    refine ⟨scale, hscale, fun ks hks => ?_, hfull.encodeInteger_mem, fun x hx => ?_,
      fun x y => hfull.encodeInteger_mono, fun x hlo hhi => ?_, fun t path f t' h hroom => ?_⟩
    · rw [List.map_map]
      refine (List.map_congr_left fun k hk => ?_).trans (List.map_id' ks)
      exact hfull.encodeInteger_decodeInteger (hks k hk).1 (hks k hk).2
    -- only NaN is meant here
    · rcases finite_or_infinity_or_nan x with hfinite | rfl | rfl | rfl
      · rw [hfinite.isNaN_eq_false] at hx
        exact absurd hx Bool.false_ne_true
      · exact absurd hx (by decide)
      · exact absurd hx (by decide)
      · exact hfull.encodeInteger_of_not_finite.2.2
    -- a float between -1 and 1 is finite, and the bounds hold of its value
    · obtain ⟨hone, hone'⟩ := neg_exact near_one.finite
      have hfinite : Binary.Finite x := .of_lt_of_lt hone near_one.finite hlo hhi
      rw [lt_iff hone hfinite, hone', near_one.value_eq] at hlo
      rw [lt_iff hfinite near_one.finite, near_one.value_eq] at hhi
      exact (hfull.decodeInteger_encodeInteger_lt hfinite (abs_lt.mpr ⟨hlo, hhi⟩)).2
    -- a file that has been written is read as what the depth keeps
    · refine ⟨_, read_of_write h hroom, ?_⟩
      exact List.map_congr_left fun x _ => stored_integer (by omega) hscale x
  -- a file of floats
  · rw [read_of_write h hroom, storedFrame_float]

/-- Two samples of one channel, at a half and below full scale. -/
private def shortFrame : Frame := ⟨1, 8000, [⟨0x3f000000⟩, ⟨0xc0000000⟩], by decide, by decide⟩

/-- A file can be created in an empty folder. -/
theorem exists_create :
    ∃ created, (FileTree.ofHome []).write "out.wav" [] = .ok created := by
  have hnull : "out.wav".contains '\x00' = false := by
    rw [String.contains_char_eq]
    decide
  have hslash : "out.wav".startsWith "/" = false := by decide +kernel
  unfold FileTree.write FileTree.route
  -- the name has one part, so the file lies in the folder itself
  rw [hnull, hslash]
  exact ⟨_, rfl⟩

/-- The ends of 16 bits, a NaN, infinity, and a half; and a file that is written with two samples,
read, and written again with the same depth, and one of floats. -/
theorem codec_agrees_short :
    (∃ scale, fullScale? 16 = some scale ∧
      ([-32768, 0, 32767].map (decodeInteger scale)).map (encodeInteger scale) =
        [-32768, 0, 32767] ∧
      encodeInteger scale Scalar.nan = 0 ∧
      encodeInteger scale 1 ≤ encodeInteger scale Scalar.infinity ∧
      |value (decodeInteger scale (encodeInteger scale 0.5)) - value (0.5 : Float32)| <
        1 / 2 ^ 15) ∧
      (∃ t g u, write (.ofHome []) "out.wav" shortFrame 16 = (t, .ok ()) ∧
        read t "out.wav" = .ok (g, { channels := 1, rate := 8000, bits := 16 }) ∧
        write t "out.wav" g 16 = (u, .ok ()) ∧
        read u "out.wav" = .ok (g, { channels := 1, rate := 8000, bits := 16 })) ∧
      ∃ t, write (.ofHome []) "out.wav" shortFrame 32 = (t, .ok ()) ∧
        read t "out.wav" = .ok (shortFrame, { channels := 1, rate := 8000, bits := 32 }) := by
  obtain ⟨hinteger, hrewrite, hfloat⟩ := codec_agrees
  obtain ⟨scale, hscale, hlist, -, hnan, hmono, herror, hread⟩ := hinteger 16 (.inl rfl)
  refine ⟨⟨scale, hscale, hlist _ (by decide), hnan _ (by decide), hmono _ _ (by decide),
    herror _ (by decide) (by decide)⟩, ?_, ?_⟩
  · obtain ⟨created, hcreated⟩ := exists_create
    obtain ⟨t, hwrite⟩ := exists_write shortFrame 16 hcreated
      ⟨by decide, by decide, by decide, by decide, by decide, by decide⟩
    have hroom : HasRoom shortFrame 16 := ⟨by decide, by decide⟩
    obtain ⟨g, hg, hsamples⟩ := hread _ _ _ _ hwrite hroom
    -- what is read has the format and the length of what was written
    have hformat := format_of_read hg
    have hchannels : g.channels = 1 := congrArg Format.channels hformat
    have hrate : g.rate = 8000 := congrArg Format.rate hformat
    have hlength : g.samples.length = 2 := by
      rw [hsamples, List.length_map]
      rfl
    obtain ⟨-, created', hwritten⟩ := fits_of_write hwrite hroom
    obtain ⟨created'', hcreated'⟩ := FileTree.exists_write_of_write hwritten []
    obtain ⟨u, hrewritten⟩ := exists_write g 16 hcreated'
      (by
        rw [hchannels, hrate]
        exact ⟨by decide, by decide, by decide, by decide, by decide, by decide⟩)
    refine ⟨t, g, u, hwrite, hg, hrewritten, ?_⟩
    refine hrewrite _ _ _ _ hg (.inl rfl) _ _ _ hrewritten ⟨?_, ?_⟩
    · rw [hchannels]
      decide
    · rw [hlength]
      decide
  · obtain ⟨created, hcreated⟩ := exists_create
    obtain ⟨t, hwrite⟩ := exists_write shortFrame 32 hcreated
      ⟨by decide, by decide, by decide, by decide, by decide, by decide⟩
    exact ⟨t, hwrite, hfloat _ _ _ _ hwrite ⟨by decide, by decide⟩⟩

end Wav

end DynamicRange
