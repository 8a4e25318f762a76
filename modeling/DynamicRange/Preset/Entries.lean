/-!
# Entries of a preset

Texts by key. Each key has one text, and the keys are in ascending order of their characters, so
that equal contents are equal entries.

## Main definitions

* `Entries`, `Entries.insert`, `Entries.get?`, `Entries.ofList`
-/

namespace DynamicRange

/-- Adds an entry to an ascending list, or replaces the entry of the key. -/
def insertEntry (key text : String) : List (String × String) → List (String × String)
  | [] => [(key, text)]
  | entry :: entries =>
    if key < entry.1 then (key, text) :: entry :: entries
    else if key = entry.1 then (key, text) :: entries
    else entry :: insertEntry key text entries

/-- An entry is the one that was put in, or one that was there. -/
theorem mem_insertEntry {key text : String} {entries : List (String × String)}
    {entry : String × String} (h : entry ∈ insertEntry key text entries) :
    entry = (key, text) ∨ entry ∈ entries := by
  induction entries with
  | nil => simpa [insertEntry] using h
  | cons first rest ih =>
    simp only [insertEntry] at h
    split at h
    · simpa using h
    · split at h
      · rcases List.mem_cons.mp h with h | h
        · exact .inl h
        · exact .inr (List.mem_cons_of_mem _ h)
      · rcases List.mem_cons.mp h with h | h
        · exact .inr (h ▸ List.mem_cons_self)
        · exact (ih h).imp id (List.mem_cons_of_mem _)

/-- Entries stay in the order of their keys. -/
theorem pairwise_insertEntry {key text : String} {entries : List (String × String)}
    (h : entries.Pairwise (·.1 < ·.1)) : (insertEntry key text entries).Pairwise (·.1 < ·.1) := by
  induction entries with
  | nil => simp [insertEntry]
  | cons first rest ih =>
    obtain ⟨below, sorted⟩ := List.pairwise_cons.mp h
    simp only [insertEntry]
    split
    -- the new entry comes first, and its key is below all others
    next less =>
      refine List.pairwise_cons.mpr ⟨fun entry member => ?_, h⟩
      rcases List.mem_cons.mp member with rfl | member
      · exact less
      · exact String.lt_trans less (below entry member)
    -- it takes the place of the first, or is put into the rest, whose keys are above the first
    next notLess =>
      split
      next same =>
        exact List.pairwise_cons.mpr ⟨fun entry member => same ▸ below entry member, sorted⟩
      next other =>
        refine List.pairwise_cons.mpr ⟨fun entry member => ?_, ih sorted⟩
        rcases mem_insertEntry member with rfl | member
        · exact Std.lt_of_le_of_ne (String.not_lt.mp notLess) (Ne.symm other)
        · exact below entry member

/-- Texts by key. -/
structure Entries where
  toList : List (String × String)
  ascending : toList.Pairwise (·.1 < ·.1)
deriving DecidableEq

namespace Entries

/-- No entries. -/
def empty : Entries := ⟨[], .nil⟩

instance : Inhabited Entries := ⟨empty⟩

/-- Adds an entry, or replaces the entry of the key. -/
def insert (e : Entries) (key text : String) : Entries :=
  ⟨insertEntry key text e.toList, pairwise_insertEntry e.ascending⟩

/-- The text of a key. -/
def get? (e : Entries) (key : String) : Option String := e.toList.lookup key

/-- The entries of a list. Of several entries of one key, the last counts. -/
def ofList (entries : List (String × String)) : Entries :=
  entries.foldl (fun e entry => e.insert entry.1 entry.2) empty

end Entries

end DynamicRange
