/-!
# Paths

A path is a text whose segments are divided by slashes.
-/

namespace DynamicRange.Path

/-- The segments of a path. There are empty ones where slashes meet and at either end. -/
def segments : List Char → List (List Char)
  | [] => [[]]
  | c :: cs =>
    if c == '/' then [] :: segments cs
    else
      match segments cs with
      | [] => [[c]]
      | first :: rest => (c :: first) :: rest

/-- Whether a segment leads nowhere. -/
def isIdle (segment : List Char) : Bool := segment.isEmpty || segment == ['.']

/-- Drops the idle segments at the end. -/
def dropIdle (segments : List (List Char)) : List (List Char) :=
  (segments.reverse.dropWhile isIdle).reverse

/-- The path with its last segment taken off, and with it the idle ones around it. A single point at
the start of a path is no idle segment. A path without segments has no parent. -/
def parent? (path : List Char) : Option (List Char) :=
  let join := ['/'].intercalate
  match segments path with
  | [] :: rest =>
    let body := dropIdle rest
    if body.isEmpty then none else some ('/' :: join (dropIdle body.dropLast))
  | first :: rest =>
    let body := dropIdle rest
    if body.isEmpty then some [] else some (join (first :: dropIdle body.dropLast))
  | [] => none

end DynamicRange.Path
