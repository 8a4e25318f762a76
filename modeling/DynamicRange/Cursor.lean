import DynamicRange.Frame

/-!
# Reading a stream block by block

A cursor hands out a stream in consecutive blocks of any size.

## Main definitions

* `Cursor`, `Cursor.ofFrame`, `Cursor.next?`, `Cursor.rewind`
-/

namespace DynamicRange

/-- A place in a stream. -/
structure Cursor where
  /-- The whole stream. -/
  stream : Frame
  /-- The number of samples handed out. -/
  position : Nat
  /-- The samples still to come, kept at hand so that a block need not be searched for. -/
  rest : Frame

namespace Cursor

/-- The start of a stream. -/
def ofFrame (stream : Frame) : Cursor := { stream, position := 0, rest := stream }

/-- The number of samples still to come. -/
def remaining (c : Cursor) : Nat := c.rest.length

/-- Whether all samples have been handed out. -/
def isExhausted (c : Cursor) : Bool := c.rest.isEmpty

/-- The next block of at most `size` samples; none at the end of the stream. -/
def next? (c : Cursor) (size : Nat) : Option (Frame × Cursor) :=
  if c.isExhausted then none
  else
    let block := c.rest.take size
    some (block, { c with position := c.position + block.length, rest := c.rest.drop size })

/-- Back to the start of the stream. -/
def rewind (c : Cursor) : Cursor := ofFrame c.stream

end Cursor

end DynamicRange
