import DynamicRange.Groups
import DynamicRange.Sample
import DynamicRange.Scalar.Conversion
import DynamicRange.Wav.Header

/-!
# Samples of WAV files

Integer samples of `b` bits stand for numbers from -1 up to, but without, 1: they are divided by
the full scale `2 ^ (b - 1)`.

## Main definitions

* `fullScale?`, `encodeInteger`, `decodeInteger`
* `WavLayout.samples`: the samples in the bytes of a file
* `sampleBytes`: the bytes of a sample
-/

namespace DynamicRange

/-- The full scale of integers with so many bits. It is computed in words of 64 bits, whose highest
bit is a sign; there is none for larger depths. -/
def fullScale? (bits : Nat) : Option Float32 :=
  if 64 < bits then none
  else if bits = 64 then some (-.ofNat (1 <<< 63))
  else some (.ofNat (1 <<< (bits - 1)))

/-- The sample of an integer. -/
def decodeInteger (scale : Float32) (n : Int) : Float32 := .ofInt n / scale

/-- The integer nearest to a sample toward zero, limited to the range of the depth. NaN is zero. -/
def encodeInteger (scale x : Float32) : Int :=
  Scalar.truncate (-2147483648) 2147483647 (Scalar.limit (-scale) (scale - 1) (x * scale))

namespace WavLayout

/-- The integer that a number of the given width stands for. Bytes are centred at 128. -/
def integerOf (width bits n : Nat) : Except WavError Int :=
  match width, bits with
  | 1, 8 => .ok (n - 128)
  | 2, 16 => .ok (Bytes.signed 16 n)
  | 3, 24 => .ok (Bytes.signed 24 n)
  | 4, 24 => .ok (Bytes.signed 24 n)
  | 4, 32 => .ok (Bytes.signed 32 n)
  | _, _ => .error (if 4 < width then .tooWide else .unsupported)

/-- The sample whose bits are a number of the given width. -/
def floatOf (width bits n : Nat) : Except WavError Sample :=
  if width = 4 ∧ bits = 32 then .ok ⟨n.toUInt32⟩
  else .error (if 4 < width then .tooWide else .unsupported)

/-- One sample from the bytes of its channel. -/
def sample (l : WavLayout) (scale : Float32) (bytes : List UInt8) : Except WavError Sample := do
  let n := Bytes.toNat bytes
  let x ← match l.encoding with
    | .integer => (integerOf l.width l.bits n).map (.ofValue <| decodeInteger scale ·)
    | .float => floatOf l.width l.bits n
  if bytes.length < l.width then throw .truncated
  return x

/-- The full scale of the samples; floats need none. -/
def scale? (l : WavLayout) : Option Float32 :=
  match l.encoding with
  | .integer => fullScale? l.bits
  | .float => some 1

/-- The first `count` samples in the bytes of a file. If there are fewer, the first that lacks bytes
is the last one tried. -/
def samples (l : WavLayout) (count : Nat) (data : List UInt8) :
    Except AudioError (List Sample) :=
  match l.scale? with
  | none => .error .overflow
  | some scale =>
    let tried := min count (data.length / l.width + 1)
    ((groups l.width tried data).mapM (l.sample scale)).mapError .wav

end WavLayout

/-- The bytes of a sample at a depth: an integer of 16 or 24 bits, or a float of 32. -/
def sampleBytes (bits : Nat) (s : Sample) : List UInt8 :=
  if bits = 32 then Bytes.ofNat 4 s.bits.toNat
  else
    match fullScale? bits with
    | some scale => Bytes.ofNat (bits / 8) ((encodeInteger scale s.value) % (1 <<< bits : Nat)).toNat
    | none => []

end DynamicRange
