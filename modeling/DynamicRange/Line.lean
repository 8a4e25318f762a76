/-!
# Input lines

A compressor with a sidechain has two input lines. `PerLine` holds one value for each.
-/

namespace DynamicRange

/-- One of the two input lines. -/
inductive Line where
  /-- The signal being compressed. -/
  | main
  /-- The signal that drives the gain. -/
  | sidechain
deriving DecidableEq, Repr

namespace Line

/-- The other line. -/
def other : Line → Line
  | main => sidechain
  | sidechain => main

/-- The name of a line. -/
def name : Line → String
  | main => "main"
  | sidechain => "sidechain"

end Line

/-- One value for each line. -/
@[ext]
structure PerLine (α : Type) where
  main : α
  sidechain : α
deriving DecidableEq, Repr

namespace PerLine

variable {α : Type}

/-- The value of a line. -/
def get (p : PerLine α) : Line → α
  | .main => p.main
  | .sidechain => p.sidechain

/-- Replaces the value of a line. -/
def set (p : PerLine α) (line : Line) (a : α) : PerLine α :=
  match line with
  | .main => { p with main := a }
  | .sidechain => { p with sidechain := a }

/-- A value that was set is the one that is there. -/
@[simp, grind =]
theorem get_set_self (p : PerLine α) (line : Line) (a : α) : (p.set line a).get line = a := by
  cases line <;> rfl

/-- The value of the other line stays. -/
@[simp, grind =]
theorem get_set_other (p : PerLine α) (line : Line) (a : α) :
    (p.set line a).get line.other = p.get line.other := by
  cases line <;> rfl

end PerLine

end DynamicRange
