import DynamicRange.Compressor

/-!
# Calls in place

A host changes a compressor and its buffers in place. A call makes its checks and writes one thing
after another; when it stops on the way, what it has written by then stays written. Here the
operations that can stop are stated in that form, check by check and assignment by assignment.

## Main definitions

* `Call`: a call on a state, and `Abort`, why it stops; `Call.leaves`: the state it leaves
* `Engine.InPlace`: settings and buffers
* `Pairing.InPlace`: slots
* `Compressor.InPlace`, `SidechainCompressor.InPlace`
-/

namespace DynamicRange

/-- Why a call stops on the way. -/
inductive Abort where
  /-- A setting is out of range. -/
  | settings (e : RangeError)
  /-- A frame has another format than its line. -/
  | format (e : FormatMismatch)
  /-- An assertion does not hold, or a position lies past the end of a buffer. -/
  | assertion

/-- A call that works on a state in place. -/
abbrev Call (σ α : Type) := EStateM Abort σ α

namespace Call

variable {σ τ α : Type}

/-- The state that a call leaves, whether it comes to its end or stops. -/
def leaves (call : Call σ α) (s : σ) : σ :=
  match call s with
  | .ok _ s => s
  | .error _ s => s

/-- Whether a call stops on the way. -/
def Stops (call : Call σ α) (s : σ) : Prop := ∃ reason s', call s = .error reason s'

/-- Goes on only if `p` holds. -/
def require (p : Prop) [Decidable p] (reason : Abort) : Call σ Unit :=
  if p then return else throw reason

/-- The part of a buffer between two positions, which must not lie past its end. -/
def slice (buffer : List Sample) (start stop : Nat) : Call σ (List Sample) := do
  require (start ≤ stop ∧ stop ≤ buffer.length) .assertion
  return (buffer.drop start).take (stop - start)

/-- A call on a part of a state. -/
def on (part : σ → τ) (put : σ → τ → σ) (call : Call τ α) : Call σ α := fun s =>
  match call (part s) with
  | .ok a t => .ok a (put s t)
  | .error reason t => .error reason (put s t)

end Call

/-! ### The engine -/

namespace Engine.InPlace

open Call (require)

/-- Takes over settings: what follows from them first, then the settings themselves. -/
def adopt (s : Settings) : Call Engine Unit := do
  modify fun e => { e with knee := .make s.threshold s.ratio s.knee }
  modify fun e => { e with envelope := e.envelope.setAttack s.attack }
  modify fun e => { e with envelope := e.envelope.setRelease s.release }
  modify fun e => { e with settings := s }

/-- Takes over settings, unless one is out of range. -/
def setSettings (s : Settings) : Call Engine Unit := do
  match s.validate with
  | .error e => throw (.settings e)
  | .ok _ => adopt s

/-- Sets a parameter in a copy of the settings, and takes the copy over. -/
def setParameter (i : Nat) (x : Float32) : Call Engine Unit := do
  let e ← get
  adopt (Parametric.setParameter e.settings i x)

/-- All channels of sample `i` of a buffer. -/
def sampleAt (channels : Nat) (buffer : List Sample) (i : Nat) : List Sample :=
  (buffer.drop (i * channels)).take channels

/-- Compresses `n` samples of the buffer from the `i`-th on, one after another. The detector sample
is read when its turn comes. -/
def sweep (channels : Nat) (detector : List Sample → Nat → List Sample) :
    Nat → Nat → Call (Engine × List Sample) Unit
  | _, 0 => return
  | i, n + 1 => do
    modify fun (e, buffer) =>
      let (factor, e) := e.step (detector buffer i)
      (e, buffer.take (i * channels) ++ scale factor (sampleAt channels buffer i) ++
        buffer.drop ((i + 1) * channels))
    sweep channels detector (i + 1) n

/-- Compresses the first `n` samples of the buffer by the level of the first `n` of `detector`. -/
def process (channels : Nat) (detector : List Sample) (detectorChannels n : Nat) :
    Call (Engine × List Sample) Unit := do
  require (0 < channels ∧ 0 < detectorChannels) .assertion
  let held ← get
  require (n * channels ≤ held.2.length) .assertion
  require (n * detectorChannels ≤ detector.length) .assertion
  sweep channels (fun _ => sampleAt detectorChannels detector) 0 n

/-- Compresses the first `n` samples of the buffer by their own level. -/
def processInPlace (channels n : Nat) : Call (Engine × List Sample) Unit := do
  require (0 < channels) .assertion
  let held ← get
  require (n * channels ≤ held.2.length) .assertion
  sweep channels (sampleAt channels) 0 n

/-- A call on the engine of a host that also holds a buffer. -/
def beside (call : Call Engine Unit) : Call (Engine × List Sample) Unit :=
  call.on Prod.fst fun held e => (e, held.2)

/-- A call on an engine and a buffer of its own: the buffer is the answer. -/
def within (buffer : List Sample) (call : Call (Engine × List Sample) Unit) :
    Call Engine (List Sample) := fun e =>
  match call (e, buffer) with
  | .ok _ (e, buffer) => .ok buffer e
  | .error reason (e, _) => .error reason e

end Engine.InPlace

/-! ### The slots -/

namespace Pairing.InPlace

open Call (require)

/-- Fills or frees the slot of a line. -/
def put (line : Line) (slot : Option Frame) : Call Pairing Unit :=
  modify fun p => { p with slots := p.slots.set line slot }

/-- Appends a frame to what its line holds. -/
def push (line : Line) (f : Frame) : Call Pairing Unit := do
  let p ← get
  let expected := p.formats.get line
  require (f.format = expected) (.format { line, expected, got := f.format })
  if f.isEmpty then return
  -- the slot is free while the frames are joined
  put line none
  match p.slots.get line with
  | none => put line (some f)
  | some held =>
    match held.append? f with
    | none => throw .assertion
    | some joined => put line (some joined)

/-- Takes the first `n` samples that a line holds. -/
def takeHead (line : Line) (n : Nat) : Call Pairing (Option Frame) := do
  let p ← get
  match p.slots.get line with
  | none => return none
  | some f =>
    put line none
    match f.splitAt? n with
    | none => throw .assertion
    | some (head, tail) =>
      if tail.isEmpty = false then put line (some tail)
      return some head

/-- Takes the span that both lines hold, off one line after the other. -/
def takePair : Call Pairing (Option (PerLine Frame)) := do
  let p ← get
  match p.slots.main, p.slots.sidechain with
  | some main, some sidechain =>
    let n := min main.length sidechain.length
    let some main ← takeHead .main n | return none
    let some sidechain ← takeHead .sidechain n | return none
    return some ⟨main, sidechain⟩
  | _, _ => return none

end Pairing.InPlace

/-! ### The compressors -/

namespace Compressor.InPlace

/-- A call on the engine of a compressor. -/
def onEngine {α : Type} (call : Call Engine α) : Call Compressor α :=
  call.on Compressor.engine fun c engine => { c with engine }

/-- Compresses a frame, after the rate has been set to that of the frame. -/
def process (f : Frame) : Call Compressor Frame := do
  modify (·.follow f)
  let samples ← onEngine (Engine.InPlace.within f.samples
    (Engine.InPlace.processInPlace f.channels f.length))
  return f.replace samples

end Compressor.InPlace

namespace SidechainCompressor.InPlace

/-- A call on the engine of a compressor with a sidechain. -/
def onEngine {α : Type} (call : Call Engine α) : Call SidechainCompressor α :=
  call.on SidechainCompressor.engine fun c engine => { c with engine }

/-- A call on the slots of a compressor with a sidechain. -/
def onPairing {α : Type} (call : Call Pairing α) : Call SidechainCompressor α :=
  call.on SidechainCompressor.pairing fun c pairing => { c with pairing }

/-- Takes in a frame of one line and gives the samples of the main line that it completes. -/
def push (line : Line) (f : Frame) : Call SidechainCompressor (Option Frame) := do
  onPairing (Pairing.InPlace.push line f)
  let some pair ← onPairing Pairing.InPlace.takePair | return none
  let samples ← onEngine (Engine.InPlace.within pair.main.samples
    (Engine.InPlace.process pair.main.channels pair.sidechain.samples pair.sidechain.channels
      pair.main.length))
  return some (pair.main.replace samples)

end SidechainCompressor.InPlace

end DynamicRange
