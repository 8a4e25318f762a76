/-!
# Endings

Takes a given ending off a text.
-/

namespace DynamicRange.Text

/-- What stands before the given ending of a text that has it. -/
def dropEnding? (ending cs : List Char) : Option (List Char) :=
  if ending.isSuffixOf cs then some (cs.take (cs.length - ending.length)) else none

/-- What stands before the first of the given endings that the text has. -/
def dropAnyEnding? (endings : List (List Char)) (cs : List Char) : Option (List Char) :=
  endings.findSome? (dropEnding? · cs)

end DynamicRange.Text
