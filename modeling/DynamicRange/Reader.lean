import DynamicRange.Cursor
import DynamicRange.InPlace

/-!
# Reading a stream in place

A reader keeps the stream and a position, and cuts each block out of the whole interleaved list. A
difference that would be negative and a part that does not lie in the list stop the call. A cursor
reads the same blocks without looking for them.

## Main definitions

* `Reader`, `Reader.remaining`, `Reader.nextFrame`, `Reader.rewind`
* `Reader.Step`, `Reader.run`: the steps of a host, who keeps the frames it is given
* `Cursor.run`: the same steps with a cursor
-/

namespace DynamicRange

/-- A stream that is read block by block. -/
structure Reader where
  /-- The whole stream. -/
  stream : Frame
  /-- The number of samples handed out. -/
  position : Nat

namespace Reader

open Call (require slice)

/-- The start of a stream. -/
def ofFrame (stream : Frame) : Reader := { stream, position := 0 }

/-- The number of samples still to come. -/
def remaining : Call Reader Nat := do
  let r ← get
  require (r.position ≤ r.stream.length) .assertion
  return r.stream.length - r.position

/-- The next block of at most `size` samples; none at the end of the stream. -/
def nextFrame (size : Nat) : Call Reader (Option Frame) := do
  if (← remaining) = 0 then return none
  let taken := min size (← remaining)
  let r ← get
  let start := r.position * r.stream.channels
  let stop := start + taken * r.stream.channels
  modify fun r => { r with position := r.position + taken }
  match Frame.ofInterleaved? (← slice r.stream.samples start stop) r.stream.channels
      r.stream.rate with
  | some f => return some f
  | none => throw .assertion

/-- Back to the start of the stream. -/
def rewind : Call Reader Unit := modify fun r => { r with position := 0 }

/-- What a host does with a reader. -/
inductive Step where
  /-- It asks for a block of at most `size` samples. -/
  | next (size : Nat)
  /-- It goes back to the start, and puts away the frames it has. -/
  | rewind

/-- The frames that the host has after a step. -/
def Step.kept (step : Step) (frames : List Frame) (reply : Option Frame) : List Frame :=
  match step with
  | next _ => frames ++ reply.toList
  | rewind => []

/-- Performs one step. -/
def perform : Step → Call Reader (Option Frame)
  | .next size => nextFrame size
  | .rewind => do
    rewind
    return none

/-- Performs steps one after another, for a host that has `frames` so far. -/
def run (frames : List Frame) : List Step → Call Reader (List Frame)
  | [] => return frames
  | step :: steps => do
    let reply ← perform step
    run (step.kept frames reply) steps

end Reader

namespace Cursor

/-- Performs one step. At the end of the stream the cursor stays. -/
def perform (c : Cursor) : Reader.Step → Option Frame × Cursor
  | .next size =>
    match c.next? size with
    | some (f, c) => (some f, c)
    | none => (none, c)
  | .rewind => (none, c.rewind)

/-- Performs steps one after another, for a host that has `frames` so far. -/
def run (c : Cursor) (frames : List Frame) : List Reader.Step → List Frame × Cursor
  | [] => (frames, c)
  | step :: steps =>
    let (reply, c) := c.perform step
    c.run (step.kept frames reply) steps

end Cursor

end DynamicRange
