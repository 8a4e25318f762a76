import DynamicRange.Preset.File
import DynamicRange.Text.Pad
import DynamicRange.Wav.Error

/-!
# Failures of a command

A failure is a message with the causes behind it, the nearest first.

## Main definitions

* `Failure`, `Failure.because`, `Failure.report`
-/

namespace DynamicRange

/-- A failure with its causes. -/
structure Failure where
  /-- What failed. -/
  message : String
  /-- Why, the nearest cause first. -/
  causes : List String := []
deriving DecidableEq, Repr

namespace Failure

/-- The failure of something that needed `f` not to fail. -/
def because (message : String) (f : Failure) : Failure := ⟨message, f.message :: f.causes⟩

/-- The failure in one line. -/
def chain (f : Failure) : String := ": ".intercalate (f.message :: f.causes)

/-- A cause as a block: `first` before its first line and `margin` before the others. -/
def block (first margin cause : String) : String :=
  "\n" ++ first ++ ("\n" ++ margin).intercalate (cause.splitOn "\n")

/-- The causes as blocks, numbered if there are several. -/
def blocks : List String → String
  | [cause] => block "    " "    " cause
  | causes =>
    let numbered := (List.range causes.length).zip causes
    String.join (numbered.map fun (i, cause) =>
      block (Text.padStart 5 (toString i) ++ ": ") "       " cause)

/-- The failure as it is reported. -/
def report (f : Failure) : String :=
  let causes := if f.causes.isEmpty then "" else "\n\nCaused by:" ++ blocks f.causes
  "Error: " ++ f.message ++ causes ++ "\n"

/-- The failure of a preset. -/
def ofPreset (e : PresetError) : Failure :=
  match e with
  | .file _ _ cause => ⟨e.message, [cause.message]⟩
  | .faulty faults => ⟨e.message, [Fault.summary faults]⟩
  | .malformed | .unknown _ | .unwritable => ⟨e.message, []⟩

/-- The failure of an audio file. -/
def ofAudio (e : AudioError) : Failure := ⟨e.message, e.cause?.toList⟩

end Failure

end DynamicRange
