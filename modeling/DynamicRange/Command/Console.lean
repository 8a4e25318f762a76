import DynamicRange.Command.Failure
import DynamicRange.Files.Tree

/-!
# Console

What a command works on: files, and the lines it prints. What a command has printed and written
stays when it fails.

## Main definitions

* `Console`, `say`, `fail`
* `Outcome`: what is left of a run
-/

namespace DynamicRange

/-- The files and the lines printed. -/
structure World where
  files : FileTree
  /-- The lines, the last one first. -/
  lines : List String

/-- Why a command ends early. -/
inductive Stop where
  | failure (f : Failure)
  /-- It was ended by an arithmetic overflow. -/
  | crash

/-- Computations of a command. -/
abbrev Console := ExceptT Stop (StateM World)

namespace Console

/-- Prints a line. -/
def say (line : String) : Console PUnit :=
  modify fun w => { w with lines := line :: w.lines }

/-- Prints several lines. -/
def sayAll (lines : List String) : Console PUnit := lines.forM say

/-- Ends with a failure. -/
def fail {α : Type} (f : Failure) : Console α := throw (.failure f)

/-- The value of a result, or else the end by a failure. -/
def attempt {ε α : Type} (failure : ε → Failure) : Except ε α → Console α
  | .ok a => pure a
  | .error e => fail (failure e)

/-- The value of a result on audio, or else the end. -/
def attemptAudio {α : Type} (failure : Failure → Failure) : Except AudioError α → Console α
  | .ok a => pure a
  | .error .overflow => throw .crash
  | .error e => fail (failure (.ofAudio e))

/-- The value of a result on presets, or else the end. -/
def attemptPreset {α : Type} (failure : Failure → Failure) : Except PresetError α → Console α
  | .ok a => pure a
  | .error .unwritable => throw .crash
  | .error e => fail (failure (.ofPreset e))

/-- The files. -/
def files : Console FileTree := do return (← get).files

/-- Puts changed files in place and gives the result of the change. -/
def change {α : Type} (act : FileTree → FileTree × α) : Console α := do
  let w ← get
  let (files, a) := act w.files
  set { w with files }
  return a

end Console

/-- What is left of a run. -/
structure Outcome where
  /-- The exit code; none if the program was ended. -/
  code : Option Nat
  /-- What was printed. -/
  output : String := ""
  /-- What was reported as an error. -/
  errors : String := ""
  files : FileTree

/-- Runs a command. -/
def Console.outcome (command : Console PUnit) (files : FileTree) : Outcome :=
  let (result, w) := command.run.run ⟨files, []⟩
  let output := String.join (w.lines.reverse.map (· ++ "\n"))
  match result with
  | .ok _ => { code := some 0, output, files := w.files }
  | .error (.failure f) => { code := some 1, output, errors := f.report, files := w.files }
  | .error .crash => { code := none, output, files := w.files }

end DynamicRange
