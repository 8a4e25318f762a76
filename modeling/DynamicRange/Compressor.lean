import DynamicRange.Engine
import DynamicRange.Frame
import DynamicRange.Pairing

/-!
# Compressors

A compressor of one stream, which is its own detector, and a compressor with a sidechain, whose
detector is a second stream.

## Main definitions

* `Compressor`, `Compressor.ofSettings`, `Compressor.process`, `Compressor.setRate`
* `SidechainCompressor`, `SidechainCompressor.ofSettings`, `SidechainCompressor.push`
-/

namespace DynamicRange

/-- Why a compressor cannot be set up. -/
inductive SetupError where
  /-- A setting is out of range. -/
  | settings (e : RangeError)
  /-- The formats of the input lines do not do. -/
  | lines (e : LineError)

/-- The reason in words. -/
def SetupError.message : SetupError → String
  | settings e => e.message
  | lines e => e.message

/-- A compressor of one stream. -/
structure Compressor where
  engine : Engine
  /-- The sample rate of the frames. -/
  rate : Nat

namespace Compressor

/-- The compressor of given settings at a rate, which must not be zero. -/
def ofSettings (s : Settings) (rate : Nat) : Except SetupError Compressor := do
  if rate = 0 then throw (.lines (.zeroRate .main))
  let engine ← (Engine.ofSettings s (.ofNat rate)).mapError .settings
  return { engine, rate }

/-- Sets the sample rate. -/
def setRate (c : Compressor) (rate : Nat) : Compressor :=
  { engine := c.engine.setRate (.ofNat rate), rate }

/-- Sets the rate to that of a frame, if the frame tells one. -/
def follow (c : Compressor) (f : Frame) : Compressor :=
  if f.rate ≠ c.rate ∧ f.rate ≠ 0 then c.setRate f.rate else c

/-- Compresses a frame. -/
def process (c : Compressor) (f : Frame) : Frame × Compressor :=
  let c := c.follow f
  let (samples, engine) := c.engine.processInPlace f.samples f.channels f.length
  (f.replace samples, { c with engine })

/-- Takes over settings, unless one is out of range. -/
def setSettings (c : Compressor) (s : Settings) : Except RangeError Compressor := do
  return { c with engine := ← c.engine.setSettings s }

/-- Puts the level and the meter back to their start. -/
def reset (c : Compressor) : Compressor := { c with engine := c.engine.reset }

instance : Parametric Compressor where
  parameterCount c := Parametric.parameterCount c.engine
  descriptor? c := Parametric.descriptor? c.engine
  parameter c := Parametric.parameter c.engine
  setParameter c i x := { c with engine := Parametric.setParameter c.engine i x }

end Compressor

/-- A compressor whose main line is reduced by the level of a sidechain. -/
structure SidechainCompressor where
  engine : Engine
  /-- The samples that wait for the other line. -/
  pairing : Pairing

namespace SidechainCompressor

/-- The compressor of given settings and formats. -/
def ofSettings (s : Settings) (formats : PerLine Format) :
    Except SetupError SidechainCompressor := do
  let pairing ← (Pairing.ofFormats formats).mapError .lines
  let engine ← (Engine.ofSettings s (.ofNat formats.main.rate)).mapError .settings
  return { engine, pairing }

/-- Compresses the span that both lines hold, if there is one. -/
def drain (c : SidechainCompressor) : Option Frame × SidechainCompressor :=
  match c.pairing.takePair with
  | none => (none, c)
  | some (pair, pairing) =>
    let (samples, engine) := c.engine.process pair.main.samples pair.main.channels
      pair.sidechain.samples pair.sidechain.channels pair.main.length
    (some (pair.main.replace samples), { engine, pairing })

/-- Takes in a frame of one line and gives the samples of the main line that it completes. -/
def push (c : SidechainCompressor) (line : Line) (f : Frame) :
    Except FormatMismatch (Option Frame × SidechainCompressor) := do
  let pairing ← c.pairing.push line f
  return { c with pairing }.drain

/-- The format of the output. -/
def outputFormat (c : SidechainCompressor) : Format := c.pairing.formats.main

/-- Takes over settings, unless one is out of range. -/
def setSettings (c : SidechainCompressor) (s : Settings) :
    Except RangeError SidechainCompressor := do
  return { c with engine := ← c.engine.setSettings s }

/-- Drops all that waits, and puts the level and the meter back to their start. -/
def reset (c : SidechainCompressor) : SidechainCompressor :=
  { engine := c.engine.reset, pairing := c.pairing.reset }

instance : Parametric SidechainCompressor where
  parameterCount c := Parametric.parameterCount c.engine
  descriptor? c := Parametric.descriptor? c.engine
  parameter c := Parametric.parameter c.engine
  setParameter c i x := { c with engine := Parametric.setParameter c.engine i x }

end SidechainCompressor

end DynamicRange
