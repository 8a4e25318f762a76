/-!
# Little-endian numbers

Numbers as bytes, the least significant first.
-/

namespace DynamicRange.Bytes

/-- The `count` low bytes of a number. -/
def ofNat : Nat → Nat → List UInt8
  | 0, _ => []
  | count + 1, n => n.toUInt8 :: ofNat count (n / 256)

/-- The number of a list of bytes. -/
def toNat (bytes : List UInt8) : Nat := bytes.foldr (fun byte n => byte.toNat + 256 * n) 0

/-- The bytes of ASCII characters. -/
def ofText (text : String) : List UInt8 := text.toList.map fun c => c.toNat.toUInt8

/-- The integer that the low `bits` bits of a number are in two's complement. -/
def signed (bits n : Nat) : Int :=
  let low := n % (1 <<< bits)
  if 2 * low < 1 <<< bits then low else low - (1 <<< bits : Nat)

end DynamicRange.Bytes
