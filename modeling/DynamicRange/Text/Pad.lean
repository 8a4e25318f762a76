/-!
# Padding

Fills a text up to a width with spaces.
-/

namespace DynamicRange.Text

/-- The text, with spaces after it up to the width. -/
def padEnd (width : Nat) (s : String) : String :=
  s ++ String.ofList (List.replicate (width - s.length) ' ')

/-- The text, with spaces before it up to the width. -/
def padStart (width : Nat) (s : String) : String :=
  String.ofList (List.replicate (width - s.length) ' ') ++ s

/-- A line of equals signs. -/
def rule (width : Nat) : String := String.ofList (List.replicate width '=')

end DynamicRange.Text
