import DynamicRange.Compressor
import DynamicRange.Cursor

/-!
# Rendering whole streams

Runs a compressor over streams that are at hand from start to end.

## Main definitions

* `Compressor.render`: one stream, block by block
* `Duet`, `Duet.step`, `Duet.render`: a main stream and its sidechain, fed as the compressor asks
-/

namespace DynamicRange

/-! ## One stream -/

/-- The rendering of one stream so far. -/
structure Solo where
  compressor : Compressor
  cursor : Cursor
  /-- The blocks done, the last one first. -/
  done : List Frame
  /-- The least gain in decibels at the end of a block, and at most zero. -/
  reduction : Float32

namespace Solo

/-- Compresses the next block; none at the end of the stream. -/
def step (size : Nat) (s : Solo) : Option Solo := do
  let (block, cursor) ← s.cursor.next? size
  let (block, compressor) := s.compressor.process block
  return { compressor, cursor, done := block :: s.done
           reduction := Scalar.smaller s.reduction compressor.engine.gainReduction }

/-- Compresses at most `fuel` blocks. -/
def run (size : Nat) : Nat → Solo → Solo
  | 0, s => s
  | fuel + 1, s =>
    match s.step size with
    | none => s
    | some s => run size fuel s

end Solo

/-- Compresses a stream in blocks of `size` samples. Gives the output and the largest reduction at
the end of a block. -/
def Compressor.render (c : Compressor) (size : Nat) (stream : Frame) : Frame × Float32 :=
  let start : Solo := { compressor := c, cursor := .ofFrame stream, done := [], reduction := 0 }
  let final := start.run size (stream.length + 1)
  (stream.join final.done, final.reduction)

/-! ## Two streams -/

/-- The rendering of a main stream and its sidechain so far. -/
structure Duet where
  compressor : SidechainCompressor
  main : Cursor
  sidechain : Cursor
  /-- The blocks done, the last one first. -/
  done : List Frame
  /-- The number of samples of silence that the sidechain was padded with. -/
  padding : Nat

namespace Duet

/-- Feeds a frame to the compressor. -/
def push (d : Duet) (line : Line) (f : Frame) : Except FormatMismatch Duet := do
  let (block, compressor) ← d.compressor.push line f
  return { d with compressor, done := block.toList ++ d.done }

/-- Feeds what the compressor asks for: of the main stream `mainSize` samples and of the sidechain
`sidechainSize`, unless it asks for a number of its own. Silence follows the end of the sidechain.
At the end of the main stream nothing is left to do. -/
def step (mainSize sidechainSize : Nat) (d : Duet) : Except FormatMismatch (Option Duet) :=
  match d.compressor.pairing.request with
  | none => .ok none
  | some { line := .main, samples } =>
    match d.main.next? (samples.getD mainSize) with
    | none => .ok none
    | some (f, main) => some <$> { d with main }.push .main f
  | some { line := .sidechain, samples } =>
    let wanted := samples.getD sidechainSize
    match d.sidechain.next? wanted with
    | some (f, sidechain) => some <$> { d with sidechain }.push .sidechain f
    | none =>
      some <$> { d with padding := d.padding + wanted }.push .sidechain
        (d.sidechain.stream.silenceLike wanted)

/-- Takes at most `fuel` steps. -/
def run (mainSize sidechainSize : Nat) : Nat → Duet → Except FormatMismatch Duet
  | 0, d => .ok d
  | fuel + 1, d => do
    match ← d.step mainSize sidechainSize with
    | none => return d
    | some d => run mainSize sidechainSize fuel d

/-- The start of two streams. -/
def ofStreams (c : SidechainCompressor) (main sidechain : Frame) : Duet where
  compressor := c
  main := .ofFrame main
  sidechain := .ofFrame sidechain
  done := []
  padding := 0

/-- Renders two streams to the end. Each main sample is fed at most once and asks for its sidechain
at most once, so twice as many steps suffice, and one to find the end. -/
def render (c : SidechainCompressor) (mainSize sidechainSize : Nat) (main sidechain : Frame) :
    Except FormatMismatch (Frame × Nat) := do
  let final ← (ofStreams c main sidechain).run mainSize sidechainSize (2 * main.length + 1)
  return (main.join final.done, final.padding)

end Duet

end DynamicRange
