import DynamicRange.Frame
import DynamicRange.Line

/-!
# Pairing of two lines

Frames of the main line and the sidechain arrive independently, with unrelated lengths. A pairing
holds what has arrived on each line; once both lines hold samples, the span that they share is
taken as a pair of frames of equal length, and the rest waits for more of the other line.

## Main definitions

* `Pairing`, `Pairing.ofFormats`
* `Pairing.push`, `Pairing.takePair`, `Pairing.reset`
* `Pairing.pending`, `Pairing.occupancy`, `Pairing.request`
-/

namespace DynamicRange

/-- Why two lines cannot be paired. -/
inductive LineError where
  | noChannels (line : Line)
  | zeroRate (line : Line)
  /-- The sample rates of the lines differ. -/
  | rateMismatch (rates : PerLine Nat)

/-- The reason in words. -/
def LineError.message : LineError → String
  | noChannels line => s!"{line.name} input has no channels"
  | zeroRate line => s!"{line.name} input has a sample rate of zero"
  | rateMismatch rates =>
    s!"inputs must have the same sample rate: {rates.main} Hz for main vs " ++
      s!"{rates.sidechain} Hz for sidechain"

/-- A frame of another format than its line. -/
structure FormatMismatch where
  /-- The line that the frame was meant for. -/
  line : Line
  /-- The format of the line. -/
  expected : Format
  /-- The format of the frame. -/
  got : Format

/-- The mismatch in words. -/
def FormatMismatch.message (e : FormatMismatch) : String :=
  s!"{e.line.name} frame is {e.got.text}, expected {e.expected.text}"

/-- Which lines hold samples. -/
inductive Occupancy where
  | none
  | one (line : Line)
  | both
deriving DecidableEq, Repr

/-- What a pairing waits for. -/
structure Request where
  /-- The line to feed. -/
  line : Line
  /-- The number of samples that would empty both lines; any number if there is none. -/
  samples : Option Nat
deriving DecidableEq, Repr

/-- Samples of two lines that wait for each other. -/
structure Pairing where
  formats : PerLine Format
  /-- The samples held, which are never an empty frame. -/
  slots : PerLine (Option Frame)

namespace Pairing

/-- Refuses a line without channels or with a rate of zero. -/
def checkLine (line : Line) (format : Format) : Except LineError PUnit :=
  if format.channels = 0 then .error (.noChannels line)
  else if format.rate = 0 then .error (.zeroRate line)
  else .ok ()

/-- A pairing of two lines that holds nothing. The lines must have the same rate. -/
def ofFormats (formats : PerLine Format) : Except LineError Pairing := do
  checkLine .main formats.main
  checkLine .sidechain formats.sidechain
  if formats.main.rate ≠ formats.sidechain.rate then
    throw (.rateMismatch ⟨formats.main.rate, formats.sidechain.rate⟩)
  return { formats, slots := ⟨none, none⟩ }

/-- The number of samples that a line holds. -/
def pending (p : Pairing) (line : Line) : Nat := ((p.slots.get line).map Frame.length).getD 0

/-- Which lines hold samples. -/
def occupancy (p : Pairing) : Occupancy :=
  match p.slots.main, p.slots.sidechain with
  | none, none => .none
  | some _, none => .one .main
  | none, some _ => .one .sidechain
  | some _, some _ => .both

/-- Which line to feed next; none if a pair can be taken. -/
def request (p : Pairing) : Option Request :=
  match p.occupancy with
  | .none => some { line := .main, samples := none }
  | .one line => some { line := line.other, samples := some (p.pending line) }
  | .both => none

/-- Appends a frame to what its line holds. The format must be that of the line. -/
def push (p : Pairing) (line : Line) (frame : Frame) : Except FormatMismatch Pairing :=
  let expected := p.formats.get line
  if frame.format ≠ expected then .error { line, expected, got := frame.format }
  else if frame.isEmpty then .ok p
  else
    match p.slots.get line with
    | none => .ok { p with slots := p.slots.set line (some frame) }
    | some held =>
      -- what is held has the format of its line, so the frame can be appended
      match held.append? frame with
      | some joined => .ok { p with slots := p.slots.set line (some joined) }
      | none => .error { line, expected := held.format, got := frame.format }

/-- What a slot holds of a frame: nothing if it is empty. -/
def slotOf (f : Frame) : Option Frame := if f.isEmpty then none else some f

/-- Takes the span that both lines hold. -/
def takePair (p : Pairing) : Option (PerLine Frame × Pairing) := do
  let main ← p.slots.main
  let sidechain ← p.slots.sidechain
  let n := min main.length sidechain.length
  let (mainHead, mainTail) ← main.splitAt? n
  let (sidechainHead, sidechainTail) ← sidechain.splitAt? n
  return (⟨mainHead, sidechainHead⟩, { p with slots := ⟨slotOf mainTail, slotOf sidechainTail⟩ })

/-- Drops all that the lines hold. -/
def reset (p : Pairing) : Pairing := { p with slots := ⟨none, none⟩ }

end Pairing

end DynamicRange
