import DynamicRange.Frame
import DynamicRange.Wav.Sample

/-!
# WAV files

Reads a WAV file into a frame, and writes a frame as a WAV file.

## Main definitions

* `WavSpec`: channels, rate and depth
* `Wav.readHeader`, `Wav.read`, `Wav.write`
-/

namespace DynamicRange

/-- Channels, rate and depth of a file. -/
structure WavSpec where
  channels : Nat := 1
  /-- Samples per second. -/
  rate : Nat := 48000
  /-- The depth of a sample. -/
  bits : Nat := 32
deriving DecidableEq, Repr

namespace WavSpec

/-- The format of the frames of a file. -/
def format (s : WavSpec) : Format := ⟨s.channels, s.rate⟩

/-- How samples of the depth are written. -/
def encoding (s : WavSpec) : Encoding := if s.bits = 32 then .float else .integer

end WavSpec

namespace Wav

/-- The header of a file. -/
def readHeader (t : FileTree) (path : String) : Except AudioError WavHeader := do
  let file ← (t.readBytes path).mapError (.wav ∘ .file)
  return (← (WavHeader.read file).mapError .wav).1

/-- The samples of a file. -/
def read (t : FileTree) (path : String) : Except AudioError (Frame × WavSpec) := do
  let file ← (t.readBytes path).mapError (.wav ∘ .file)
  let (header, data) ← (WavHeader.read file).mapError .wav
  let layout := header.layout
  let samples ← layout.samples header.count data
  return (.ofSamples samples layout.channels layout.rate layout.channels_pos,
    { channels := layout.channels, rate := layout.rate, bits := layout.bits })

/-- The description of samples in the chunk `fmt `. Files of more than two channels or 16 bits have
the extensible form, which names the loudspeakers of the first 18 channels. -/
def formatChunk (s : WavSpec) : List UInt8 :=
  let byteRate := s.rate * (s.bits / 8) * s.channels
  let common := Bytes.ofNat 2 s.channels ++ Bytes.ofNat 4 s.rate ++ Bytes.ofNat 4 byteRate ++
    Bytes.ofNat 2 (byteRate / s.rate) ++ Bytes.ofNat 2 s.bits
  Bytes.ofText "fmt " ++
    if s.channels ≤ 2 ∧ s.bits ≤ 16 then Bytes.ofNat 4 16 ++ Bytes.ofNat 2 1 ++ common
    else
      Bytes.ofNat 4 40 ++ Bytes.ofNat 2 0xfffe ++ common ++ Bytes.ofNat 2 22 ++
        Bytes.ofNat 2 s.bits ++ Bytes.ofNat 4 ((1 <<< min s.channels 18) - 1) ++
        WavLayout.guid s.encoding

/-- The bytes of a file. -/
def encode (s : WavSpec) (samples : List Sample) : List UInt8 :=
  let data := samples.flatMap (sampleBytes s.bits)
  let body := Bytes.ofText "WAVE" ++ formatChunk s ++ Bytes.ofText "data" ++
    Bytes.ofNat 4 data.length ++ data
  Bytes.ofText "RIFF" ++ Bytes.ofNat 4 body.length ++ body

/-- Writes a frame to a file, as integers of 16 or 24 bits or floats of 32. The file is created
before the byte rate is found to be too large. -/
def write (t : FileTree) (path : String) (f : Frame) (bits : Nat) :
    FileTree × Except AudioError PUnit :=
  if bits ≠ 16 ∧ bits ≠ 24 ∧ bits ≠ 32 then (t, .error (.depth bits))
  else if 1 <<< 16 ≤ f.channels then (t, .error (.channels f.channels))
  else
    let s : WavSpec := { channels := f.channels, rate := f.rate, bits }
    let created := t.write path []
    match created with
    | .error e => (t, .error (.file e))
    | .ok t =>
      if f.rate = 0 ∨ 1 <<< 32 ≤ f.rate * (bits / 8) * f.channels then (t, .error .overflow)
      else
        match t.write path (encode s f.samples) with
        | .ok t => (t, .ok ())
        | .error e => (t, .error (.file e))

end Wav

end DynamicRange
