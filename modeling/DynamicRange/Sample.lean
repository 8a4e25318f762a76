/-!
# Samples

A sample is a single-precision number. It is kept by its bits, because a file of floats tells NaNs
apart that are one and the same value: what is not touched keeps its bits, and what is multiplied
keeps those of a NaN up to the bit that marks it as quiet.

## Main definitions

* `Sample`, `Sample.value`, `Sample.ofValue`
* `Sample.scale`: the product with a factor
-/

namespace DynamicRange

/-- A sample, by the bits of its number. -/
structure Sample where
  bits : UInt32
deriving DecidableEq, Repr

namespace Sample

/-- The number. -/
def value (s : Sample) : Float32 := .ofBits s.bits

/-- The sample of a number. -/
def ofValue (x : Float32) : Sample := ⟨x.toBits⟩

/-- The sample of silence. -/
def silence : Sample := ⟨0⟩

instance : Inhabited Sample := ⟨silence⟩

/-- The NaN that arises from numbers, as from infinity times zero. -/
def indefinite : Sample := ⟨0xffc00000⟩

/-- The product with a factor. A NaN stays, but is made quiet. -/
def scale (factor : Float32) (s : Sample) : Sample :=
  if s.value.isNaN then ⟨s.bits ||| 0x00400000⟩
  else
    let product := s.value * factor
    if product.isNaN then indefinite else ofValue product

end Sample

end DynamicRange
