import DynamicRange.Frame
import DynamicRange.InPlace

/-!
# Buffers in place

A buffer holds the interleaved slots, the channel count and the rate of a frame, and nothing else:
that no sample lacks a channel is not part of it. The calls on a buffer change it where it is, and
rely on their assertions alone. A host keeps buffers under names.

## Main definitions

* `Buffer`, `Buffer.ofFrame`
* `Buffer.make`, `Buffer.silence`: construction
* `Buffer.splitOff`, `Buffer.append`, `Buffer.setSlot`, `Buffer.sample`
* `Shelf`, `Shelf.Step`, `Shelf.run`: buffers under names, and what a host does with them
-/

namespace DynamicRange

/-- Interleaved slots with a channel count and a rate. -/
structure Buffer where
  samples : List Sample
  channels : Nat
  rate : Nat

namespace Buffer

open Call (require slice)

/-- The buffer of a frame. -/
def ofFrame (f : Frame) : Buffer := { samples := f.samples, channels := f.channels, rate := f.rate }

/-- The format of a buffer. -/
def format (b : Buffer) : Format := ⟨b.channels, b.rate⟩

/-- A buffer of interleaved slots. -/
def make {σ : Type} (samples : List Sample) (channels rate : Nat) : Call σ Buffer := do
  require (0 < channels) .assertion
  require (samples.length % channels = 0) .assertion
  return { samples, channels, rate }

/-- A silent buffer. No buffer is larger than can be addressed. -/
def silence {σ : Type} (format : Format) (length : Nat) : Call σ Buffer := do
  require (length * format.channels < 1 <<< 61) .assertion
  make (List.replicate (length * format.channels) .silence) format.channels format.rate

/-- The number of samples per channel. -/
def length : Call Buffer Nat := do
  let b ← get
  require (b.channels ≠ 0) .assertion
  return b.samples.length / b.channels

/-- All channels of sample `i`. The positions of its slots are computed before they are looked up,
and must fit a word. -/
def sample (i : Nat) : Call Buffer (List Sample) := do
  let b ← get
  let start := i * b.channels
  require (start < 1 <<< 64) .assertion
  let stop := start + b.channels
  require (stop < 1 <<< 64) .assertion
  slice b.samples start stop

/-- Writes one slot. -/
def setSlot (slot : Nat) (x : Sample) : Call Buffer Unit := do
  let b ← get
  require (slot < b.samples.length) .assertion
  set { b with samples := b.samples.set slot x }

/-- Keeps the first `n` samples, and gives the others. -/
def splitOff (n : Nat) : Call Buffer Buffer := do
  require (n ≤ (← length)) .assertion
  let b ← get
  let slot := n * b.channels
  require (slot ≤ b.samples.length) .assertion
  set { b with samples := b.samples.take slot }
  return { b with samples := b.samples.drop slot }

/-- Takes over the samples of another buffer of the same format. -/
def append (other : Buffer) : Call Buffer Unit := do
  let b ← get
  require (b.format = other.format) .assertion
  set { b with samples := b.samples ++ other.samples }

end Buffer

/-- Buffers under names. -/
abbrev Shelf := String → Option Buffer

namespace Shelf

/-- No buffers. -/
def empty : Shelf := fun _ => none

/-- Puts a buffer under a name, in place of the one that was there. -/
def put (s : Shelf) (name : String) (b : Option Buffer) : Shelf :=
  fun name' => if name' = name then b else s name'

/-- The buffer of a name. -/
def held (name : String) : Call Shelf Buffer := do
  match (← get) name with
  | some b => return b
  | none => throw .assertion

/-- A call on the buffer of a name. What the call has written by the time it stops stays written. -/
def on {α : Type} (name : String) (call : Call Buffer α) : Call Shelf α := do
  let b ← held name
  match call b with
  | .ok a b => do
    modify (·.put name (some b))
    return a
  | .error reason b => do
    modify (·.put name (some b))
    throw reason

/-- What a host does with its buffers. -/
inductive Step where
  | make (name : String) (samples : List Sample) (channels rate : Nat)
  | silence (name : String) (format : Format) (length : Nat)
  | sample (name : String) (i : Nat)
  | setSlot (name : String) (slot : Nat) (x : Sample)
  /-- The samples split off are put under the name `tail`. -/
  | splitOff (name : String) (n : Nat) (tail : String)
  /-- Appends a copy of the buffer under the name `other`. -/
  | append (name other : String)
  /-- Takes a buffer off the shelf, for its slots. -/
  | intoInterleaved (name : String)

/-- Performs one step, and answers with the slots that it asks for. -/
def perform : Step → Call Shelf (List Sample)
  | .make name samples channels rate => do
    let b ← Buffer.make samples channels rate
    modify (·.put name (some b))
    return []
  | .silence name format length => do
    let b ← Buffer.silence format length
    modify (·.put name (some b))
    return []
  | .sample name i => on name (Buffer.sample i)
  | .setSlot name slot x => do
    on name (Buffer.setSlot slot x)
    return []
  | .splitOff name n tail => do
    let b ← on name (Buffer.splitOff n)
    modify (·.put tail (some b))
    return []
  | .append name other => do
    let b ← held other
    on name (Buffer.append b)
    return []
  | .intoInterleaved name => do
    let b ← held name
    modify (·.put name none)
    return b.samples

/-- Performs steps one after another. A host goes on when a step has stopped. -/
def run (s : Shelf) (steps : List Step) : Shelf :=
  steps.foldl (fun s step => (perform step).leaves s) s

end Shelf

end DynamicRange
