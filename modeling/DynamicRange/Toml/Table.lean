import DynamicRange.Toml.Atom

/-!
# Tables of TOML

Values, and tables as lists of entries. A document defines tables by headers and by dotted keys,
and no table may be defined twice; so each table remembers where it came from.

## Main definitions

* `Value`, `Origin`, `Table`
* `Table.update`: changes the table at a path, which is created on the way
* `Table.assign?`: the line `a.b = v`; `Table.openTable?`: the header `[a.b]`;
  `Table.openRow?`: the header `[[a.b]]`
-/

namespace DynamicRange.Toml

/-- Where a table came from. -/
inductive Origin where
  /-- From a header of its own, or the document itself. -/
  | header
  /-- From the header of a table within it. -/
  | descent
  /-- From a dotted key. -/
  | dotted
  /-- From a value in braces. -/
  | braces
deriving DecidableEq, Repr

/-- A value. -/
inductive Value where
  | text (content : String)
  /-- A number, truth value, date or time. -/
  | atom (content : Atom)
  | array (items : List Value)
  | table (origin : Origin) (entries : List (String × Value))
  /-- The tables of repeated headers in double brackets. -/
  | rows (tables : List (List (String × Value)))

/-- Keys with their values. -/
abbrev Entries := List (String × Value)

/-- A table. -/
structure Table where
  /-- Where it came from. -/
  origin : Origin
  /-- The entries in the order of their definition. -/
  entries : Entries

namespace Table

/-- The table as a value. -/
def toValue (t : Table) : Value := .table t.origin t.entries

/-- Adds an entry, or replaces the entry of the key. -/
def put (t : Table) (key : String) (value : Value) : Table :=
  if (t.entries.lookup key).isSome then
    { t with entries := t.entries.map fun entry => if entry.1 == key then (key, value) else entry }
  else { t with entries := t.entries ++ [(key, value)] }

/-- Changes the table at a path. Tables that lack on the way are created. A path of a dotted key
leads through no table that has a header, no path leads through a value, and a path into rows leads
into the last one. -/
def update (dotted : Bool) (change : Table → Option Table) : List String → Table → Option Table
  | [], t => change t
  | key :: path, t =>
    match t.entries.lookup key with
    | none => do
      let origin := if dotted then Origin.dotted else .descent
      let child ← update dotted change path ⟨origin, []⟩
      return t.put key child.toValue
    | some (.table origin entries) =>
      if origin = .braces ∨ (dotted ∧ origin = .header) then none
      else do
        let child ← update dotted change path ⟨origin, entries⟩
        return t.put key child.toValue
    | some (.rows tables) => do
      let last ← tables.getLast?
      let child ← update dotted change path ⟨.header, last⟩
      return t.put key (.rows (tables.dropLast ++ [child.entries]))
    | some _ => none

/-- Adds an entry whose key must be new. -/
def insert? (key : String) (value : Value) (t : Table) : Option Table :=
  if (t.entries.lookup key).isSome then none else some (t.put key value)

/-- Adds the value of a possibly dotted key. A dotted key extends dotted tables only. -/
def assign? (path : List String) (key : String) (value : Value) (t : Table) : Option Table :=
  t.update true
    (fun t => if path ≠ [] ∧ t.origin ≠ .dotted then none else t.insert? key value) path

/-- Defines the table of a header. It may have been met on the way to a table within it. -/
def openTable? (path : List String) (key : String) (t : Table) : Option Table :=
  t.update false
    (fun t =>
      match t.entries.lookup key with
      | none => some (t.put key (.table .header []))
      | some (.table .descent entries) => some (t.put key (.table .header entries))
      | some _ => none)
    path

/-- Adds a row to the rows of a header in double brackets. -/
def openRow? (path : List String) (key : String) (t : Table) : Option Table :=
  t.update false
    (fun t =>
      match t.entries.lookup key with
      | none => some (t.put key (.rows [[]]))
      | some (.rows tables) => some (t.put key (.rows (tables ++ [[]])))
      | some _ => none)
    path

end Table

end DynamicRange.Toml
