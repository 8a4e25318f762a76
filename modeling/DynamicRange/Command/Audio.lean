import DynamicRange.Command.Build
import DynamicRange.Decimal.Fixed
import DynamicRange.Levels
import DynamicRange.Render
import DynamicRange.Scalar.Decibel
import DynamicRange.Wav.File

/-!
# Commands on audio files

The commands `compress`, `sidechain` and `info`.
-/

namespace DynamicRange.Command

open Console

/-- A level in decibels with one place. -/
def decibels (level : Float32) : String := Decimal.fixedSingle 1 (Scalar.decibelsOfGain level)

/-- A line with the levels of a stream. -/
def levelsLine (label : String) (f : Frame) : String :=
  let levels := Levels.measure f.values
  s!"  {Text.padEnd 7 label} RMS {decibels levels.rms} dB, Peak {decibels levels.peak} dB"

/-- Reads a file. -/
def readAudio (path : String) : Console (Frame × WavSpec) := do
  attemptAudio (.because s!"Failed to read {path}") (Wav.read (← files) path)

/-- Writes a file. -/
def writeAudio (path : String) (f : Frame) (bits : Nat) : Console PUnit := do
  sayAll ["", s!"Writing {path}..."]
  attemptAudio (.because s!"Failed to write {path}") (← change (Wav.write · path f bits))
  say "Done!"

/-- The settings of a run. -/
def sourceSettings (source : Source) : Console Settings := do
  attempt id (buildSettings (← files) source)

/-- Compresses a file. -/
def compress (input output : String) (source : Source) (blockSize bits : Nat) :
    Console PUnit := do
  if blockSize = 0 then fail ⟨"--block-size must be at least 1", []⟩
  let settings ← sourceSettings source
  say s!"Reading {input}..."
  let (stream, spec) ← readAudio input
  let seconds := Decimal.fixedSingle 2 (.ofNat stream.length / .ofNat spec.rate)
  say s!"  {stream.length} samples, {stream.format.text}, {seconds}s"
  let compressor ← attempt (fun e => ⟨"Cannot configure compressor", [e.message]⟩)
    (Compressor.ofSettings settings spec.rate)
  let threshold := Decimal.text settings.threshold
  let attack := Decimal.text settings.attack
  let release := Decimal.text settings.release
  say <| s!"Compressing: threshold {threshold}, ratio {settings.ratio.text}, " ++
    s!"attack {attack} ms, release {release} ms"
  let (result, reduction) := compressor.render blockSize stream
  sayAll ["", "Stats:", levelsLine "Input:" stream, levelsLine "Output:" result,
    s!"  Max gain reduction at block end: {Decimal.fixedSingle 1 (-reduction)} dB"]
  writeAudio output result bits

/-- A line about an input file. -/
def inputLine (label path : String) (f : Frame) : String :=
  s!"{Text.padEnd 11 label}{path} ({f.length} samples, {f.format.text})"

/-- Compresses a file by the level of another. -/
def sidechain (mainPath sidechainPath output : String) (source : Source)
    (blockSize sidechainBlockSize bits : Nat) : Console PUnit := do
  if blockSize = 0 ∨ sidechainBlockSize = 0 then fail ⟨"block sizes must be at least 1", []⟩
  let settings ← sourceSettings source
  let (main, _) ← readAudio mainPath
  let (side, _) ← readAudio sidechainPath
  sayAll [inputLine "Main:" mainPath main, inputLine "Sidechain:" sidechainPath side]
  let compressor ← attempt (fun e => ⟨"Cannot pair main and sidechain inputs", [e.message]⟩)
    (SidechainCompressor.ofSettings settings ⟨main.format, side.format⟩)
  if side.length < main.length then
    let lacking := main.length - side.length
    say s!"  sidechain is {lacking} samples shorter; padding with silence"
  let (result, padding) ←
    attempt (fun e => ⟨s!"Rejected {e.line.name} frame", [FormatMismatch.message e]⟩)
      (Duet.render compressor blockSize sidechainBlockSize main side)
  sayAll ["", "Stats:", levelsLine "Main:" main, levelsLine "Side:" side,
    levelsLine "Output:" result]
  if 0 < padding then say s!"  Sidechain padded with {padding} silent samples"
  writeAudio output result bits

/-- The encoding of a file in words. -/
def encodingText (l : WavLayout) : String :=
  match l.encoding with
  | .integer => s!"PCM {l.bits}-bit"
  | .float => s!"IEEE Float {l.bits}-bit"

/-- A number of bytes in words. -/
def sizeText (bytes : Nat) : String :=
  let units (size : Nat) : String := Decimal.fixedDouble 1 (.ofNat bytes / .ofNat size)
  if bytes < 1024 then s!"{bytes} B"
  else if bytes < 1024 * 1024 then units 1024 ++ " KiB"
  else units (1024 * 1024) ++ " MiB"

/-- A row of the table of levels. -/
def levelsRow (channel peak rms : String) : String :=
  s!"  {channel}  {Text.padStart 10 peak}  {Text.padStart 10 rms}"

/-- Shows what a file holds. -/
def info (path : String) (withLevels : Bool) : Console PUnit := do
  let header ← attemptAudio (.because s!"Failed to read {path}") (Wav.readHeader (← files) path)
  let size := match (← files).readBytes path with
    | .ok bytes => bytes.length
    | .error _ => 0
  sayAll
    [s!"File:        {path}",
     s!"Encoding:    {encodingText header.layout}",
     s!"Channels:    {header.layout.channels}",
     s!"Sample Rate: {header.layout.rate} Hz",
     s!"Duration:    {Decimal.fixedDouble 3 header.seconds}s " ++
       s!"({header.length} samples per channel)",
     s!"Size:        {sizeText size}"]
  if withLevels then
    let (f, _) ← attemptAudio id (Wav.read (← files) path)
    say ""
    say (levelsRow (Text.padEnd 8 "Channel") "Peak dB" "RMS dB")
    sayAll <| (List.range f.channels).map fun channel =>
      let levels := Levels.ofChannel f channel
      levelsRow (Text.padStart 8 (toString channel)) (decibels levels.peak) (decibels levels.rms)

end DynamicRange.Command
