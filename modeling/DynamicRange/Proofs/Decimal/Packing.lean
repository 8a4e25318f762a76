import DynamicRange.Proofs.Scalar.Format

/-!
# Bits of single-precision numbers

A single-precision number is kept as its sign, exponent and fraction in 32 bits, and taken apart
into a sign, a mantissa and an exponent. Both ways lose nothing: a number is given by its parts,
and a mantissa with the exponent that the format asks for is kept as it is.

## Key results

- `Canonical`, `canonical_of_unpack`: the parts of a number
- `unpack_pack_finite`: parts that are kept as they are
- `eq_of_unpack_eq`: a number is given by its parts
-/

namespace DynamicRange.Single

open Float.Model (Format)
open Float.Model.UnpackedFloat

/-- The mantissa and exponent of a number of the format: up to 24 bits, and exactly 24 if the
exponent is not the least one. -/
structure Canonical (mantissa : Nat) (exponent : Int) : Prop where
  mantissa_pos : 0 < mantissa
  mantissa_lt : mantissa < 2 ^ 24
  exponent_ge : -149 ≤ exponent
  exponent_le : exponent ≤ 104
  normal : 2 ^ 23 ≤ mantissa ∨ exponent = -149

variable {sign : Sign} {mantissa : Nat} {exponent : Int}

/-- For the format of 32 bits the exponent has an upper bound besides. -/
theorem canonical_iff : Canonical mantissa exponent ↔
    Binary.Canonical .binary32 mantissa exponent ∧ exponent ≤ 104 := by
  constructor
  · rintro ⟨hpos, hlt, hge, hle, hnormal⟩
    exact ⟨⟨hpos, hlt, hge, hnormal⟩, hle⟩
  · rintro ⟨⟨hpos, hlt, hge, hnormal⟩, hle⟩
    exact ⟨hpos, hlt, hge, hle, hnormal⟩

/-- Bits that are those of some number, by what is kept in them. -/
theorem canonical_of_unpack {b : BitVec Format.binary32.numBits} {hpos : 0 < mantissa}
    (h : unpack .binary32 b = .finite sign mantissa exponent hpos) :
    Canonical mantissa exponent := by
  obtain ⟨hcanonical, hle⟩ := Binary.canonical_of_unpack (by decide) h
  -- the bounds of the general statement, in the numbers of this format
  have hbits : (Format.binary32.mantissaBits : Int) = 24 := rfl
  have hoverflow : Binary.overflow .binary32 = 128 := rfl
  exact canonical_iff.mpr ⟨hcanonical, by omega⟩

/-- Parts that fit the format are kept as they are. -/
theorem unpack_pack_finite {hpos : 0 < mantissa} (h : Canonical mantissa exponent) :
    unpack .binary32 (pack .binary32 (.finite sign mantissa exponent hpos)) =
      .finite sign mantissa exponent hpos := by
  obtain ⟨hcanonical, hle⟩ := canonical_iff.mp h
  have hbits : (Format.binary32.mantissaBits : Int) = 24 := rfl
  have hoverflow : Binary.overflow .binary32 = 128 := rfl
  exact hcanonical.unpack_pack (by decide) (by omega)

/-! ### Numbers -/

variable {x y : Float32}

/-- A number is given by its parts. -/
theorem eq_of_unpack_eq (h : x.toModel.unpack = y.toModel.unpack) : x = y := by
  -- two numbers are their bit patterns, and valid patterns are unpacked differently
  rcases x with ⟨⟨⟨b⟩, hvalid⟩⟩
  rcases y with ⟨⟨⟨b'⟩, hvalid'⟩⟩
  obtain rfl : b = b' := (unpack_inj_of_valid hvalid hvalid').mp h
  rfl

/-- Only one number compares equal to a positive number. -/
theorem eq_of_beq_positive {hpos : 0 < mantissa}
    (hy : y.toModel.unpack = .finite .positive mantissa exponent hpos) (h : (x == y) = true) :
    x = y := by
  rcases (Float32.beq_iff_ne_nan_and_eq.mp h).2.2 with heq | ⟨-, rfl⟩ | ⟨-, rfl⟩
  -- two zeros compare equal too, but this number is not a zero
  · exact heq
  · exact nomatch hy
  · exact nomatch hy

/-- The absolute value of a number has its mantissa and exponent, and the positive sign. -/
theorem unpack_abs {hpos : 0 < mantissa}
    (h : x.toModel.unpack = .finite sign mantissa exponent hpos) :
    x.abs.toModel.unpack = .finite .positive mantissa exponent hpos := by
  have habs : x.abs.toModel = .pack x.toModel.unpack.abs := rfl
  rw [habs, h]
  exact unpack_pack_finite (canonical_of_unpack h)

/-- The negation of a number has its mantissa and exponent, and the other sign. -/
theorem unpack_neg {hpos : 0 < mantissa}
    (h : x.toModel.unpack = .finite sign mantissa exponent hpos) :
    (-x).toModel.unpack = .finite (-sign) mantissa exponent hpos := by
  have hneg : (-x).toModel = .pack x.toModel.unpack.neg := rfl
  rw [hneg, h]
  exact unpack_pack_finite (canonical_of_unpack h)

/-- A positive number is its absolute value. -/
theorem eq_abs {hpos : 0 < mantissa}
    (h : x.toModel.unpack = .finite .positive mantissa exponent hpos) : x = x.abs :=
  eq_of_unpack_eq (h.trans (unpack_abs h).symm)

/-- A negative number is the negation of its absolute value. -/
theorem eq_neg_abs {hpos : 0 < mantissa}
    (h : x.toModel.unpack = .finite .negative mantissa exponent hpos) : x = -x.abs :=
  eq_of_unpack_eq (h.trans (unpack_neg (unpack_abs h)).symm)

end DynamicRange.Single
