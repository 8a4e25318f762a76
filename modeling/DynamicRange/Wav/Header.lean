import DynamicRange.Wav.Bytes
import DynamicRange.Wav.Error

/-!
# Headers of WAV files

A WAV file is a list of chunks. The chunk `fmt ` describes the samples, the chunk `data` holds them;
other chunks before the data are skipped.

## Main definitions

* `Encoding`, `WavLayout`: how samples are encoded
* `WavHeader.read`: the description of the samples and the bytes that hold them
-/

namespace DynamicRange

/-- How a sample is encoded. -/
inductive Encoding where
  | integer
  | float
deriving DecidableEq, Repr

/-- The description of the samples of a file. -/
structure WavLayout where
  /-- The number of interleaved channels. -/
  channels : Nat
  /-- Samples per second. -/
  rate : Nat
  /-- The depth of a sample. -/
  bits : Nat
  /-- The bytes that a sample of one channel takes. -/
  width : Nat
  encoding : Encoding
  channels_pos : 0 < channels

/-- The description of the samples and their number. -/
structure WavHeader where
  /-- The description. -/
  layout : WavLayout
  /-- The number of samples over all channels. -/
  count : Nat

/-- Computations that take bytes off the front of a file. -/
abbrev ByteReader := StateT (List UInt8) (Except WavError)

namespace ByteReader

/-- The next `count` bytes. -/
def bytes (count : Nat) : ByteReader (List UInt8) := fun file =>
  let taken := file.take count
  if taken.length < count then .error .truncated else .ok (taken, file.drop count)

/-- The number in the next `count` bytes. -/
def number (count : Nat) : ByteReader Nat := Bytes.toNat <$> bytes count

/-- Fails with a flaw unless a condition holds. -/
def require (condition : Bool) (flaw : WavFlaw) : ByteReader PUnit :=
  if condition then pure () else throw (.flawed flaw)

end ByteReader

namespace WavLayout

open ByteReader (bytes number require)

/-- The identifier of an encoding in an extensible description. -/
def guid (encoding : Encoding) : List UInt8 :=
  (match encoding with | .integer => 1 | .float => 3) ::
    [0, 0, 0, 0, 0, 16, 0, 128, 0, 0, 170, 0, 56, 155, 113]

/-- The encoding of a description that starts with `tag`, and its depth, from the bytes after the
common part. -/
def readEncoding (length tag bits : Nat) : ByteReader (Encoding × Nat) := do
  match tag with
  | 1 =>
    require (length = 16 || length = 18 || length = 40) .formatLength
    if length ≠ 16 then
      let _ ← number 2
      require (bits = 8 || bits = 16 || bits = 24) .integerBits
    if length = 40 then
      let _ ← bytes 22
    return (.integer, bits)
  | 3 =>
    require (length = 16 || length = 18) .formatLength
    if length = 18 then
      require ((← number 2) = 0) .floatExtension
    require (bits = 32) .floatBits
    return (.float, bits)
  | 0xfffe =>
    require (40 ≤ length) .formatLength
    require ((← number 2) = 22) .extensionLength
    let validBits ← number 2
    let _ ← number 4
    let identifier ← bytes 16
    let bits := if 0 < validBits then validBits else bits
    if identifier = guid .integer then return (.integer, bits)
    else if identifier = guid .float then return (.float, bits)
    else throw .unsupported
  | _ => throw .unsupported

/-- The description in a chunk of the given length. -/
def read (length : Nat) : ByteReader WavLayout := do
  require (16 ≤ length) .shortFormat
  let tag ← number 2
  let channels ← number 2
  let rate ← number 4
  let byteRate ← number 4
  let alignment ← number 2
  let bits ← number 2
  if h : 0 < channels then
    let width := alignment / channels
    require (8 * width < 1 <<< 16 && bits ≤ 8 * width) .wideSample
    require (byteRate = alignment * rate) .inconsistentRates
    require (bits % 8 = 0) .raggedBits
    require (0 < bits) .noBits
    let (encoding, bits) ← readEncoding length tag bits
    return { channels, rate, bits, width, encoding, channels_pos := h }
  else throw (.flawed .noChannels)

end WavLayout

namespace WavHeader

open ByteReader (bytes number require)

/-- The header of a data chunk of the given length. -/
def ofData (layout : WavLayout) (length : Nat) : ByteReader WavHeader := do
  require (length % layout.width = 0) .raggedData
  let count := length / layout.width
  require (count % layout.channels = 0) .raggedChannels
  return { layout, count }

/-- Reads chunks up to the data, of which there are at most `fuel`. A later description takes the
place of an earlier one. Of a `fact` chunk four bytes are skipped, whatever length it tells. -/
def readChunks : Nat → Option WavLayout → ByteReader WavHeader
  | 0, _ => throw .truncated
  | fuel + 1, layout? => do
    let tag ← bytes 4
    let length ← number 4
    if tag = Bytes.ofText "fmt " then
      readChunks fuel (some (← WavLayout.read length))
    else if tag = Bytes.ofText "fact" then
      let _ ← bytes 4
      readChunks fuel layout?
    else if tag = Bytes.ofText "data" then
      match layout? with
      | some layout => ofData layout length
      | none => throw (.flawed .noFormat)
    else
      let _ ← bytes length
      readChunks fuel layout?

/-- The header of a file. -/
def reader (fileLength : Nat) : ByteReader WavHeader := do
  require ((← bytes 4) = Bytes.ofText "RIFF") .noRiff
  let _ ← bytes 4
  require ((← bytes 4) = Bytes.ofText "WAVE") .noWave
  -- a chunk takes eight bytes at least, so the file cannot hold more chunks than bytes
  readChunks fileLength none

/-- The header of a file and the bytes after it. -/
def read (file : List UInt8) : Except WavError (WavHeader × List UInt8) :=
  (reader file.length).run file

/-- The number of samples per channel. -/
def length (h : WavHeader) : Nat := h.count / h.layout.channels

/-- The duration in seconds. -/
def seconds (h : WavHeader) : Float := .ofNat h.length / .ofNat h.layout.rate

end WavHeader

end DynamicRange
