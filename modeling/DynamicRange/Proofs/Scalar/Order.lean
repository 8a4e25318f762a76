import DynamicRange.Scalar.Conversion

/-!
# Order of single-precision numbers

Comparison is total but for NaN: of two numbers one is at most the other, where zeros of either
sign are equal. All of this is read off the comparison of unpacked floats.

## Key results

- `le_of_not_lt`: a number that is not below another is at least the other
- `isFinite_of_le_of_le`: a number between finite ones is finite
- `le_limit`, `limit_le`: a number limited to an interval lies in it
-/

namespace DynamicRange.Scalar

open Float.Model (UnpackedFloat)

/-! ### Unpacked floats -/

/-- Comparing the other way round turns the answer round. -/
private theorem compare_swap (x y : UnpackedFloat) :
    y.compare x = (x.compare y).map Ordering.swap := by
  rcases x with (_ | _) | _ | (_ | _) | ⟨_ | _, m, e, _⟩ <;>
    rcases y with (_ | _) | _ | (_ | _) | ⟨_ | _, m', e', _⟩ <;> try rfl
  -- only two finite numbers of one sign are left
  · show some _ = some _
    rw [← Int.compare_swap, ← Nat.compare_swap, ← Ordering.swap_then]
  · show some _ = some _
    rw [Ordering.swap_then, Int.compare_swap, Nat.compare_swap]

/-- Two numbers, infinities among them, always compare. -/
private theorem compare_isSome {x y : UnpackedFloat} (hx : x.isNaN = false)
    (hy : y.isNaN = false) : (x.compare y).isSome := by
  rcases x with (_ | _) | _ | (_ | _) | ⟨_ | _, m, e, _⟩ <;>
    rcases y with (_ | _) | _ | (_ | _) | ⟨_ | _, m', e', _⟩ <;>
      first | rfl | contradiction

/-- With a NaN nothing compares. -/
private theorem not_isNaN_of_compare {x y : UnpackedFloat} {o : Ordering}
    (h : x.compare y = some o) : x.isNaN = false ∧ y.isNaN = false := by
  cases x <;> cases y <;> first | exact ⟨rfl, rfl⟩ | exact nomatch h

/-! ### Floats -/

/-- The order of floats is the comparison of what their bits stand for. -/
private theorem le_iff_compare (x y : Float32) :
    x ≤ y ↔ (x.toModel.unpack.compare y.toModel.unpack).any (·.isLE) = true :=
  decide_eq_true_iff

/-- So is the strict order. -/
private theorem lt_iff_compare (x y : Float32) :
    x < y ↔ x.toModel.unpack.compare y.toModel.unpack = some .lt :=
  decide_eq_true_iff.trans beq_iff_eq

/-- With a NaN nothing is at most anything. -/
theorem not_isNaN_of_le {x y : Float32} (h : x ≤ y) : x.isNaN = false ∧ y.isNaN = false := by
  -- an answer there is, and NaN gives none
  obtain ⟨o, ho, -⟩ := (Option.any_eq_true ..).mp ((le_iff_compare x y).mp h)
  exact not_isNaN_of_compare ho

/-- Nothing is below itself, NaN included. -/
theorem not_lt_self (x : Float32) : ¬x < x := by
  intro h
  have hlt := (lt_iff_compare x x).mp h
  -- `lt` turned round would be `gt`, and both are the answer to the same comparison
  have hswap := compare_swap x.toModel.unpack x.toModel.unpack
  rw [hlt] at hswap
  exact nomatch hswap

/-- Comparison is total on numbers. -/
theorem le_of_not_lt {x y : Float32} (hx : x.isNaN = false) (hy : y.isNaN = false)
    (h : ¬y < x) : x ≤ y := by
  -- both are numbers, so there is an answer
  obtain ⟨o, ho⟩ := Option.isSome_iff_exists.mp (compare_isSome hx hy)
  rw [lt_iff_compare, compare_swap x.toModel.unpack, ho, Option.map_some] at h
  rw [le_iff_compare, ho]
  -- the swapped comparison is `lt` only if this one is `gt`
  cases o with
  | lt => rfl
  | eq => rfl
  | gt => exact absurd rfl h

/-- Nothing is both at most and above the same. -/
theorem not_lt_of_le {x y : Float32} (h : x ≤ y) : ¬y < x := by
  intro hlt
  have hswap := compare_swap y.toModel.unpack x.toModel.unpack
  rw [(lt_iff_compare y x).mp hlt] at hswap
  rw [le_iff_compare, hswap] at h
  exact absurd h (by decide)

/-- A number is at most itself. -/
theorem le_refl {x : Float32} (hx : x.isNaN = false) : x ≤ x :=
  le_of_not_lt hx hx (not_lt_self x)

/-- A number between finite ones is finite. -/
theorem isFinite_of_le_of_le {a x b : Float32} (ha : a.isFinite = true) (hb : b.isFinite = true)
    (hax : a ≤ x) (hxb : x ≤ b) : x.isFinite = true := by
  -- by the unpacked floats, where every case is one of finitely many shapes
  rw [le_iff_compare] at hax hxb
  have ha' : a.toModel.unpack.isFinite = true := ha
  have hb' : b.toModel.unpack.isFinite = true := hb
  show x.toModel.unpack.isFinite = true
  generalize a.toModel.unpack = a at ha' hax
  generalize b.toModel.unpack = b at hb' hxb
  generalize x.toModel.unpack = x at hax hxb
  rcases x with (_ | _) | _ | (_ | _) | ⟨_ | _, m, e, _⟩ <;> try rfl
  · -- a negative infinity is not above a finite number
    rcases a with _ | _ | _ | ⟨_ | _, m, e, _⟩ <;>
      first | exact absurd ha' Bool.false_ne_true | exact absurd hax Bool.false_ne_true
  -- a positive infinity is not below one
  · rcases b with _ | _ | _ | ⟨_ | _, m, e, _⟩ <;>
      first | exact absurd hb' Bool.false_ne_true | exact absurd hxb Bool.false_ne_true
  -- and NaN compares with nothing
  · rcases a with _ | _ | _ | _ <;>
      first | exact absurd ha' Bool.false_ne_true | exact absurd hax Bool.false_ne_true

/-! ### Limiting -/

/-- What is limited is not below the lower end. -/
theorem le_limit {lo hi x : Float32} (h : lo ≤ hi) (hx : x.isNaN = false) :
    lo ≤ limit lo hi x := by
  -- the ends compare, so neither is NaN
  obtain ⟨hlo, hhi⟩ := not_isNaN_of_le h
  unfold limit
  split
  · exact le_refl hlo
  · split
    · exact h
    · exact le_of_not_lt hlo hx ‹_›

/-- What is limited is not above the upper end. -/
theorem limit_le {lo hi x : Float32} (h : lo ≤ hi) (hx : x.isNaN = false) :
    limit lo hi x ≤ hi := by
  obtain ⟨hlo, hhi⟩ := not_isNaN_of_le h
  unfold limit
  split
  · exact h
  · split
    · exact le_refl hhi
    · exact le_of_not_lt hx hhi ‹_›

end DynamicRange.Scalar
