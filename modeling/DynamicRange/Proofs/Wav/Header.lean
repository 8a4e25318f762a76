import DynamicRange.Proofs.Wav.Bytes
import DynamicRange.Wav.File

/-!
# Headers are read as they are written

The header of a file that is written describes the samples in one of two forms. Either is read back
as the layout of the depth, provided that every number fits into the bytes that its field has.

## Key results

- `WavSpec.Fits`: the fields of a header are wide enough
- `WavSpec.Fits.reads_layout`: the description of the samples
- `WavSpec.Fits.reads_header`: what stands before the data of a file
- `WavHeader.channels_dvd_of_read`: no sample lacks a channel
-/

namespace DynamicRange

open ByteReader (Reads)
open ByteReader.Reads (number bytes require_bind)

namespace WavSpec

/-- A depth that samples are written with, and numbers that the fields of a header can hold. -/
structure Fits (s : WavSpec) : Prop where
  bits : s.bits = 16 ∨ s.bits = 24 ∨ s.bits = 32
  channels_pos : 0 < s.channels
  channels_lt : s.channels < 2 ^ 16
  rate_pos : 0 < s.rate
  byteRate_lt : s.rate * (s.bits / 8) * s.channels < 2 ^ 32
  /-- A sample of all channels takes as many bytes as its field can tell. -/
  alignment_lt : s.bits / 8 * s.channels < 2 ^ 16

/-- The layout of the samples of a file. -/
def layout (s : WavSpec) (h : 0 < s.channels) : WavLayout where
  channels := s.channels
  rate := s.rate
  bits := s.bits
  width := s.bits / 8
  encoding := s.encoding
  channels_pos := h

/-- What both forms of a description have in common. -/
def commonFields (s : WavSpec) : List UInt8 :=
  Bytes.ofNat 2 s.channels ++ Bytes.ofNat 4 s.rate ++
    Bytes.ofNat 4 (s.rate * (s.bits / 8) * s.channels) ++
    Bytes.ofNat 2 (s.bits / 8 * s.channels) ++ Bytes.ofNat 2 s.bits

namespace Fits

variable {s : WavSpec}

/-- The depth is whole bytes. -/
theorem width_mul_eight (h : s.Fits) : 8 * (s.bits / 8) = s.bits := by
  rcases h.bits with hb | hb | hb <;> omega

/-- A sample takes a byte at least. -/
theorem width_pos (h : s.Fits) : 0 < s.bits / 8 := by
  rcases h.bits with hb | hb | hb <;> omega

/-- The rate is held by its field, as the rate of bytes is. -/
theorem rate_lt (h : s.Fits) : s.rate < 2 ^ 32 := by
  -- a second has no fewer bytes than samples of one channel
  have hone := Nat.mul_pos h.width_pos h.channels_pos
  have hle := Nat.le_mul_of_pos_right s.rate hone
  rw [← Nat.mul_assoc] at hle
  exact Nat.lt_of_le_of_lt hle h.byteRate_lt

/-- The bytes of a sample of all channels, as they are computed of the rate of bytes. -/
theorem byteRate_div (h : s.Fits) :
    s.rate * (s.bits / 8) * s.channels / s.rate = s.bits / 8 * s.channels := by
  rw [Nat.mul_assoc, Nat.mul_div_cancel_left _ h.rate_pos]

/-- The common part is read as the layout, whatever form follows. -/
theorem reads_layout (h : s.Fits) {length tag : ℕ} {rest : List UInt8} (hlength : 16 ≤ length)
    (htag : tag < 2 ^ 16)
    (hrest : Reads (WavLayout.readEncoding length tag s.bits) rest (s.encoding, s.bits)) :
    Reads (WavLayout.read length) (Bytes.ofNat 2 tag ++ (s.commonFields ++ rest))
      (s.layout h.channels_pos) := by
  have hwidth : s.bits / 8 * s.channels / s.channels = s.bits / 8 :=
    Nat.mul_div_cancel _ h.channels_pos
  -- the depth is a number of whole bytes, and at most four
  have height := h.width_mul_eight
  have hpos := h.width_pos
  have hle : s.bits ≤ 32 := by
    rcases h.bits with hb | hb | hb <;> omega
  simp only [commonFields, List.append_assoc]
  -- the fields stand in the order in which they are read, and each number fits into its field
  refine require_bind (decide_eq_true hlength) (.bind (number htag) ?_)
  refine .bind (number h.channels_lt) (.bind (number h.rate_lt) ?_)
  refine .bind (number h.byteRate_lt) (.bind (number h.alignment_lt) ?_)
  refine .bind (number (by omega)) ?_
  -- what the fields say of one another
  simp only [dif_pos h.channels_pos, hwidth]
  refine require_bind ?_ (require_bind ?_ (require_bind ?_ (require_bind ?_ ?_)))
  · simp only [height, Bool.and_eq_true, decide_eq_true_eq]
    omega
  · rw [decide_eq_true_eq, Nat.mul_assoc, Nat.mul_comm]
  · rw [decide_eq_true_eq]
    omega
  · rw [decide_eq_true_eq]
    omega
  -- the encoding is read of what follows the fields
  · rw [← List.append_nil rest]
    exact .bind hrest (.pure _)

/-- The form without an extension. -/
theorem reads_short (h : s.Fits) (hbits : s.bits = 16) :
    Reads (WavLayout.read 16) (Bytes.ofNat 2 1 ++ s.commonFields) (s.layout h.channels_pos) := by
  have hencoding : s.encoding = .integer := by rw [encoding, hbits]; rfl
  -- nothing follows the fields, so the tag alone tells the encoding
  rw [← List.append_nil s.commonFields]
  refine h.reads_layout (by decide) (by decide) ?_
  rw [hencoding]
  exact .pure _

/-- The extensible form. Which loudspeakers the mask names does not matter. -/
theorem reads_extensible (h : s.Fits) {mask : ℕ} (hmask : mask < 2 ^ 32) :
    Reads (WavLayout.read 40) (Bytes.ofNat 2 0xfffe ++ (s.commonFields ++ (Bytes.ofNat 2 22 ++
      (Bytes.ofNat 2 s.bits ++ (Bytes.ofNat 4 mask ++ WavLayout.guid s.encoding)))))
      (s.layout h.channels_pos) := by
  have hbits : 0 < s.bits ∧ s.bits < 2 ^ 16 := by
    rcases h.bits with hb | hb | hb <;> omega
  refine h.reads_layout (by decide) (by decide) ?_
  rw [← List.append_nil (WavLayout.guid s.encoding)]
  -- the tag says that the encoding is named after the fields
  refine require_bind (decide_eq_true (le_refl 40)) (.bind (number (by decide)) ?_)
  refine require_bind rfl (.bind (number hbits.2) (.bind (number hmask) (.bind (bytes rfl) ?_)))
  simp only [if_pos hbits.1]
  -- each of the two encodings has its own identifier
  cases s.encoding <;> exact .pure _

/-- The description of the samples, as a chunk with its length. -/
theorem exists_reads_formatChunk (h : s.Fits) :
    ∃ length chunk, Wav.formatChunk s =
        Bytes.ofText "fmt " ++ (Bytes.ofNat 4 length ++ chunk) ∧ length < 2 ^ 32 ∧
      Reads (WavLayout.read length) chunk (s.layout h.channels_pos) := by
  rw [Wav.formatChunk]
  simp only [h.byteRate_div]
  split
  -- only 16 bits are written in the short form
  next hshort =>
    have hbits : s.bits = 16 := by
      rcases h.bits with hb | hb | hb <;> omega
    refine ⟨16, _, ?_, by decide, h.reads_short hbits⟩
    simp only [commonFields, List.append_assoc]
  next =>
    -- the mask has a bit for each channel, but not more than 18
    have hmask : (1 <<< min s.channels 18) - 1 < 2 ^ 32 := by
      have hpow : 2 ^ min s.channels 18 ≤ 2 ^ 18 := Nat.pow_le_pow_right (by decide) (by omega)
      rw [Nat.shiftLeft_eq]
      omega
    refine ⟨40, _, ?_, by decide, h.reads_extensible hmask⟩
    simp only [commonFields, List.append_assoc]

/-! ### The file -/

/-- The chunk before the data, and the length of the data. -/
theorem reads_ofData (h : s.Fits) {count : ℕ} (hcount : s.channels ∣ count) :
    Reads (WavHeader.ofData (s.layout h.channels_pos) (count * (s.bits / 8))) []
      { layout := s.layout h.channels_pos, count } := by
  -- the length of the data is that of whole samples
  have hdiv : count * (s.bits / 8) / (s.bits / 8) = count := Nat.mul_div_cancel _ h.width_pos
  refine require_bind ?_ (require_bind ?_ ?_)
  · exact decide_eq_true (Nat.mul_mod_left ..)
  · show decide (count * (s.bits / 8) / (s.bits / 8) % s.channels = 0) = true
    rw [hdiv]
    exact decide_eq_true (Nat.mod_eq_zero_of_dvd hcount)
  · show Reads (Pure.pure (WavHeader.mk _ (count * (s.bits / 8) / (s.bits / 8)))) _ _
    rw [hdiv]
    exact .pure _

/-- What stands before the data is read as the layout and the number of samples. -/
theorem reads_header (h : s.Fits) {count : ℕ} (hcount : s.channels ∣ count)
    (hlength : count * (s.bits / 8) < 2 ^ 32) (total : ℕ) {fileLength : ℕ}
    (hfuel : 2 ≤ fileLength) :
    Reads (WavHeader.reader fileLength) (Bytes.ofText "RIFF" ++ (Bytes.ofNat 4 total ++
      (Bytes.ofText "WAVE" ++ (Wav.formatChunk s ++ (Bytes.ofText "data" ++
        Bytes.ofNat 4 (count * (s.bits / 8)))))))
      { layout := s.layout h.channels_pos, count } := by
  -- two chunks are read, so the bound on the chunks is at least two
  obtain ⟨fuel, rfl⟩ := Nat.exists_eq_add_of_le' hfuel
  obtain ⟨length, chunk, hchunk, hlt, hreads⟩ := h.exists_reads_formatChunk
  simp only [hchunk, List.append_assoc]
  -- the tags of the file come first, and the length of the whole is not looked at
  refine .bind (bytes rfl) (require_bind rfl ?_)
  refine .bind (bytes (Bytes.length_ofNat ..)) (.bind (bytes rfl) (require_bind rfl ?_))
  -- the description, then the data
  refine .bind (bytes rfl) (.bind (number hlt) ?_)
  rw [if_pos rfl]
  refine .bind hreads (.bind (bytes rfl) ?_)
  rw [← List.append_nil (Bytes.ofNat 4 _)]
  refine .bind (number hlength) ?_
  -- the second tag is neither that of a description nor unknown: it is that of the data
  rw [if_neg (by decide), if_neg (by decide), if_pos rfl]
  exact h.reads_ofData hcount

end Fits

end WavSpec

namespace WavHeader

/-! ### Headers that can be read -/

variable {header : WavHeader} {rest : List UInt8}

/-- No sample of a data chunk lacks a channel. -/
theorem channels_dvd_of_ofData {layout : WavLayout} {length : ℕ} {file : List UInt8}
    (h : (ofData layout length).run file = .ok (header, rest)) :
    header.layout.channels ∣ header.count := by
  -- both conditions have held, and the second is the one that is wanted
  obtain ⟨-, h⟩ := ByteReader.require_bind_eq_ok h
  obtain ⟨hchannels, h⟩ := ByteReader.require_bind_eq_ok h
  obtain ⟨rfl, -⟩ := Prod.mk.inj (Except.ok.inj h)
  exact Nat.dvd_of_mod_eq_zero (of_decide_eq_true hchannels)

/-- Nor does one that is found among the chunks. -/
theorem channels_dvd_of_readChunks {fuel : ℕ} {layout? : Option WavLayout} {file : List UInt8}
    (h : (readChunks fuel layout?).run file = .ok (header, rest)) :
    header.layout.channels ∣ header.count := by
  induction fuel generalizing layout? file with
  | zero => exact nomatch h
  | succ fuel ih =>
    -- a chunk is a tag and a length, and only that of the data ends the search
    obtain ⟨tag, _, -, h⟩ := ByteReader.bind_eq_ok_iff.mp h
    obtain ⟨length, _, -, h⟩ := ByteReader.bind_eq_ok_iff.mp h
    -- a description
    split at h
    · obtain ⟨layout, _, -, h⟩ := ByteReader.bind_eq_ok_iff.mp h
      exact ih h
    -- a fact chunk, which is skipped
    split at h
    · obtain ⟨_, _, -, h⟩ := ByteReader.bind_eq_ok_iff.mp h
      exact ih h
    -- the data, of which a description has to be known
    split at h
    · split at h
      · exact channels_dvd_of_ofData h
      · exact nomatch h
    -- any other chunk is skipped
    · obtain ⟨_, _, -, h⟩ := ByteReader.bind_eq_ok_iff.mp h
      exact ih h

/-- The samples of a file that can be read are those of all channels. -/
theorem channels_dvd_of_read {file : List UInt8} (h : read file = .ok (header, rest)) :
    header.layout.channels ∣ header.count := by
  -- the tags of the file are passed over
  obtain ⟨_, _, -, h⟩ := ByteReader.bind_eq_ok_iff.mp h
  obtain ⟨-, h⟩ := ByteReader.require_bind_eq_ok h
  obtain ⟨_, _, -, h⟩ := ByteReader.bind_eq_ok_iff.mp h
  obtain ⟨_, _, -, h⟩ := ByteReader.bind_eq_ok_iff.mp h
  obtain ⟨-, h⟩ := ByteReader.require_bind_eq_ok h
  exact channels_dvd_of_readChunks h

end WavHeader

end DynamicRange
