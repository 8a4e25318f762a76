/-!
# Case of letters

Names are compared without regard to the case of ASCII letters. A second folding, for the names of
factory presets, also takes the Kelvin sign for a `k`: besides the ASCII letters it is the only
character whose lower case is an ASCII character.
-/

namespace DynamicRange.Text

/-- Lower case of the ASCII letters; other characters stay. -/
def lower (cs : List Char) : List Char := cs.map Char.toLower

/-- Whether two texts are equal up to the case of ASCII letters. -/
def sameName (s t : String) : Bool := lower s.toList == lower t.toList

/-- Lower case as far as it matters for comparison with an ASCII text. -/
def foldLetter (c : Char) : Char := if c == '\u212A' then 'k' else c.toLower

/-- Whether `s` has the lower case of the ASCII text `t`. -/
def sameFolded (s t : String) : Bool := s.toList.map foldLetter == t.toList.map foldLetter

end DynamicRange.Text
