import DynamicRange.Parameter.Descriptor
import DynamicRange.Text.Case

/-!
# Processors with parameters

A host reaches the parameters of a processor by index, without knowing the processor.

## Main definitions

* `Parametric`: count, description, value and setter, by index
* `findParameter?`: the index of a name
* `Bank`: a processor that is nothing but its parameters
-/

namespace DynamicRange

open Parameter (Descriptor)

/-- Processors whose parameters are reached by index. -/
class Parametric (σ : Type) where
  parameterCount : σ → Nat
  descriptor? : σ → Nat → Option Descriptor
  /-- The value of a parameter, zero beyond the last. -/
  parameter : σ → Nat → Float32
  /-- Sets a parameter. Nothing happens beyond the last. -/
  setParameter : σ → Nat → Float32 → σ

namespace Parameter

/-- Whether a descriptor goes by a name: its name, short name or stable name, in any case. -/
def Descriptor.answersTo (d : Descriptor) (name : String) : Bool :=
  Text.sameName d.name name || Text.sameName d.shortName name || Text.sameName d.id name

end Parameter

/-- The least index of a parameter that goes by the name. -/
def findParameter? {σ : Type} [Parametric σ] (s : σ) (name : String) : Option Nat :=
  (List.range (Parametric.parameterCount s)).find? fun i =>
    (Parametric.descriptor? s i).any (·.answersTo name)

/-- A row of parameters with their values. -/
structure Bank where
  /-- The descriptions and current values, in order. -/
  rows : List (Descriptor × Float32)

namespace Bank

/-- The bank of the given descriptions, at their defaults. -/
def ofDescriptors (ds : List Descriptor) : Bank := ⟨ds.map fun d => (d, d.default)⟩

instance : Parametric Bank where
  parameterCount b := b.rows.length
  descriptor? b i := b.rows[i]?.map Prod.fst
  parameter b i := (b.rows[i]?.map Prod.snd).getD 0
  setParameter b i x := ⟨b.rows.modify i fun (d, _) => (d, d.clamp x)⟩

end Bank

end DynamicRange
