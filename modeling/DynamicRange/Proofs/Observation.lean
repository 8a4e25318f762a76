import DynamicRange.Proofs.Coherence

/-!
# What is seen of a compressor

A host sees of an engine or a compressor what its operations answer and what can be read between
them: the settings, the meter and the level, and with a sidechain the request and what is held. The
rest of the state is told apart only by what it leads to later.

## Main definitions

* `observe`: readings and answers along operations
* `Engine.observe`, `Compressor.observe`, `SidechainCompressor.observe`
-/

namespace DynamicRange

/-- The reading before each operation, and its answer. -/
def observe {State Op Reading Reply : Type} (perform : State → Op → State) (read : State → Reading)
    (reply : State → Op → Reply) (s : State) : List Op → List (Reading × Reply)
  | [] => []
  | op :: ops => (read s, reply s op) :: observe perform read reply (perform s op) ops

/-! ### The engine -/

namespace Engine

/-- What can be read of an engine: its settings and rate with what follows from them, the level, the
meter, and the flat values of the controls. -/
structure Reading where
  settings : Settings
  knee : Knee Float32
  rate : Float32
  level : Float32
  gainReduction : Float32
  parameter : Nat → Float32

/-- What can be read of an engine. -/
def read (e : Engine) : Reading where
  settings := e.settings
  knee := e.knee
  rate := e.rate
  level := e.level
  gainReduction := e.gainReduction
  parameter := Parametric.parameter e

/-- What an operation on an engine answers. -/
inductive Reply where
  | done
  /-- A setting is out of range. -/
  | refused (e : RangeError)
  /-- A buffer is too short or has no channels. -/
  | outOfBounds
  | samples (xs : List Sample)

/-- The answer of an engine to an operation. -/
def reply (e : Engine) : Op → Reply
  | .setSettings s =>
    match e.setSettings s with
    | .ok _ => .done
    | .error err => .refused err
  | .setParameter .. | .setRate _ | .reset => .done
  | .process main mc detector dc n =>
    match e.process? main mc detector dc n with
    | some (xs, _) => .samples xs
    | none => .outOfBounds
  | .processInPlace signal channels n =>
    match e.processInPlace? signal channels n with
    | some (xs, _) => .samples xs
    | none => .outOfBounds

/-- The readings and answers of an engine along a run. -/
def observe : Engine → List Op → List (Reading × Reply) := DynamicRange.observe perform read reply

end Engine

/-! ### One stream -/

namespace Compressor

/-- What an operation on a compressor answers. -/
inductive Reply where
  | done
  /-- A setting is out of range. -/
  | refused (e : RangeError)
  | frame (f : Frame)

/-- The answer of a compressor to an operation. -/
def reply (c : Compressor) : Op → Reply
  | .setSettings s =>
    match c.setSettings s with
    | .ok _ => .done
    | .error err => .refused err
  | .setParameter .. | .setRate _ | .reset => .done
  | .process f => .frame (c.process f).1

/-- All that can be read of a compressor is read of its engine. -/
def observe : Compressor → List Op → List (Engine.Reading × Reply) :=
  DynamicRange.observe perform (fun c => c.engine.read) reply

end Compressor

/-! ### Two lines -/

namespace SidechainCompressor

/-- What can be read of a compressor with a sidechain: its engine, what it waits for and what it
holds. -/
structure Reading where
  engine : Engine.Reading
  request : Option Request
  occupancy : Occupancy
  pending : Line → Nat
  outputFormat : Format

/-- What can be read of a compressor with a sidechain. -/
def read (c : SidechainCompressor) : Reading where
  engine := c.engine.read
  request := c.pairing.request
  occupancy := c.pairing.occupancy
  pending := c.pairing.pending
  outputFormat := c.outputFormat

/-- What an operation on a compressor with a sidechain answers. -/
inductive Reply where
  | done
  /-- A setting is out of range. -/
  | refused (e : RangeError)
  | pushed (answer : Answer)

/-- The answer of a compressor with a sidechain to an operation. -/
def reply (c : SidechainCompressor) : Op → Reply
  | .setSettings s =>
    match c.setSettings s with
    | .ok _ => .done
    | .error err => .refused err
  | .setParameter .. | .reset => .done
  | .push line f => .pushed (c.feed line f).1

/-- The readings and answers of a compressor with a sidechain along a run. -/
def observe : SidechainCompressor → List Op → List (Reading × Reply) :=
  DynamicRange.observe perform read reply

end SidechainCompressor

end DynamicRange
