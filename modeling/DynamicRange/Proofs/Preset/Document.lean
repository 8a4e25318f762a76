import DynamicRange.Preset.Document
import DynamicRange.Proofs.Preset.Entries
import DynamicRange.Proofs.Toml.Document

/-!
# Preset documents read back

The document of a preset has its strings at the top and its entries in one table. The keys of the
table are ascending, so no key comes twice, and reading it gives the preset that was written.

## Key results

- `Document.read?_write`: the table of a written preset
- `read?_write`: a written preset reads back
-/

namespace DynamicRange

namespace Toml

/-- The entries of a table of strings. -/
def textEntries (entries : List (String × String)) : Entries :=
  entries.map fun entry => (entry.1, .text entry.2)

/-! ### Tables -/

namespace Table

/-- A key that is new is put behind the other entries. -/
theorem put_of_new {t : Table} {key : String} {value : Value} (h : t.entries.lookup key = none) :
    t.put key value = ⟨t.origin, t.entries ++ [(key, value)]⟩ := by
  rw [put, h]
  rfl

/-- The value of the last entry is replaced there. -/
theorem put_last {origin : Origin} {entries : Entries} {key : String} {value value' : Value}
    (h : entries.lookup key = none) :
    (⟨origin, entries ++ [(key, value)]⟩ : Table).put key value' =
      ⟨origin, entries ++ [(key, value')]⟩ := by
  have hlookup : (entries ++ [(key, value)]).lookup key = some value := by
    rw [List.lookup_append, h]
    simp
  -- the key is nowhere before the last entry
  have hsame : entries.map (fun entry => if entry.1 == key then (key, value') else entry) =
      entries.map id := by
    refine List.map_congr_left fun entry hentry => if_neg ?_
    have hne := bne_iff_ne.mp (List.lookup_eq_none_iff.mp h entry hentry)
    exact fun heq => hne (eq_of_beq heq).symm
  rw [put, hlookup]
  simp only [Option.isSome_some, if_true, List.map_append, hsame, List.map_id]
  simp

end Table

namespace Document

/-- The header of a new table. -/
theorem add?_table {entries : Entries} {key : String} (h : entries.lookup key = none) :
    (⟨⟨.header, entries⟩, []⟩ : Document).add? (.table [] key) =
      some ⟨⟨.header, entries ++ [(key, .table .header [])]⟩, [key]⟩ := by
  -- there is no table of that name yet, so that the header makes one and goes into it
  simp [add?, Table.update, Table.openTable?, Table.put_of_new, h]

/-- An assignment after a header. -/
theorem add?_assign_in_table {entries members : Entries} {table key : String} {value : Value}
    (htable : entries.lookup table = none) (h : members.lookup key = none) :
    (⟨⟨.header, entries ++ [(table, .table .header members)]⟩, [table]⟩ : Document).add?
        (.assign [] key value) =
      some ⟨⟨.header, entries ++ [(table, .table .header (members ++ [(key, value)]))]⟩,
        [table]⟩ := by
  have hlookup : (entries ++ [(table, Value.table .header members)]).lookup table =
      some (.table .header members) := by
    rw [List.lookup_append, htable]
    simp
  -- the assignment goes into the table of the last header, which has no such key
  simp [add?, Table.update, hlookup, Table.assign?, Table.insert?, h, Table.put_of_new,
    Table.toValue, Table.put_last htable]

/-- Assignments after a header fill its table, if no key comes twice. -/
theorem foldlM_add?_entries {entries : Entries} {table : String}
    (htable : entries.lookup table = none) {members texts : List (String × String)}
    (h : (members ++ texts).Pairwise (·.1 ≠ ·.1)) :
    (texts.map fun entry => Statement.assign [] entry.1 (.text entry.2)).foldlM add?
        ⟨⟨.header, entries ++ [(table, .table .header (textEntries members))]⟩, [table]⟩ =
      some ⟨⟨.header, entries ++ [(table, .table .header (textEntries (members ++ texts)))]⟩,
        [table]⟩ := by
  -- one assignment after another; what was assigned before is among the members
  induction texts generalizing members with
  | nil => simp
  | cons text texts ih =>
    -- keys that are distinct are not assigned yet
    have hnew : (textEntries members).lookup text.1 = none := by
      refine List.lookup_eq_none_iff.mpr fun entry hentry => ?_
      obtain ⟨member, hmember, rfl⟩ := List.mem_map.mp hentry
      have hne := (List.pairwise_append.mp h).2.2 member hmember text List.mem_cons_self
      exact bne_iff_ne.mpr hne.symm
    have hmembers : textEntries members ++ [(text.1, .text text.2)] =
        textEntries (members ++ [text]) := by
      simp [textEntries]
    have hrest : (members ++ [text] ++ texts).Pairwise (·.1 ≠ ·.1) := by
      rw [← List.append_cons]
      exact h
    -- the first assignment is added to the members, and the others follow
    rw [List.map_cons, List.foldlM_cons, add?_assign_in_table htable hnew, hmembers,
      List.append_cons members text texts]
    exact ih hrest

end Document

end Toml

namespace Preset

open Toml

/-- The strings at the top of a preset's document. -/
def topEntries (p : Preset) : List (String × String) :=
  ("name", p.name) :: (p.description.map fun text => ("description", text)).toList ++
    [("mode", p.mode.name)]

/-- The text of a written preset, line by line. -/
theorem writeChars_eq (p : Preset) :
    p.writeChars = p.topEntries.flatMap (fun entry => writeEntry entry.1 entry.2) ++
      '\n' :: '[' :: ("params".toList ++ ']' :: '\n' ::
        p.params.toList.flatMap fun entry => writeEntry entry.1 entry.2) := by
  unfold writeChars topEntries
  cases p.description <;> simp

/-- None of the strings at the top has the key of the table of entries. -/
theorem lookup_params_topEntries (p : Preset) :
    (textEntries p.topEntries).lookup "params" = none := by
  unfold topEntries
  cases p.description <;> rfl

/-- The statements of a written preset: its strings, a header, and its entries. -/
theorem statements?_writeChars (p : Preset) {fuel : Nat}
    (h : p.topEntries.length + 1 + p.params.toList.length < fuel) :
    statements? fuel p.writeChars =
      some ((p.topEntries.map fun entry => .assign [] entry.1 (.text entry.2)) ++
        .table [] "params" :: p.params.toList.map fun entry =>
          .assign [] entry.1 (.text entry.2)) := by
  obtain ⟨spare, rfl⟩ : ∃ spare, fuel =
      spare + 1 + p.params.toList.length + 1 + p.topEntries.length :=
    ⟨fuel - (p.topEntries.length + 1 + p.params.toList.length + 1), by omega⟩
  -- behind the last entry there is no statement left
  have hend : statements? (spare + 1) [] = some [] := rfl
  have hbare : ∀ c ∈ "params".toList, isBare c = true := List.all_eq_true.mp (by decide)
  have hentries := statements?_entries (spare + 1) p.params.toList []
  rw [List.append_nil, hend, Option.map_some, List.append_nil] at hentries
  -- the strings at the top, the header and the entries, each read off the front
  rw [writeChars_eq, statements?_entries, statements?_header _ (by decide) hbare, hentries]
  rfl

/-- The strings at the top make the first entries of the table. -/
theorem foldlM_add?_topEntries (p : Preset) :
    (p.topEntries.map fun entry => Statement.assign [] entry.1 (.text entry.2)).foldlM
        Document.add? Document.empty =
      some ⟨⟨.header, textEntries p.topEntries⟩, []⟩ := by
  unfold topEntries
  cases p.description <;> rfl

/-- The table of a written preset. -/
theorem read?_document (p : Preset) :
    Document.read? p.write = some ⟨.header,
      textEntries p.topEntries ++ [("params", .table .header (textEntries p.params.toList))]⟩ := by
  -- a written document has no byte order mark to drop
  have hhead : p.writeChars.head? ≠ some '\ufeff' := by
    have hname : p.writeChars.head? = some 'n' := by simp [writeChars, writeEntry, writeKey, isBare]
    rw [hname]
    decide
  -- every statement takes at least one character, so the fuel is enough
  have hlines : p.topEntries.length + 1 + p.params.toList.length < p.writeChars.length + 1 := by
    have htop := length_le_lines p.topEntries
    have hparams := length_le_lines p.params.toList
    rw [writeChars_eq]
    simp only [List.length_append, List.length_cons]
    omega
  -- the keys ascend, and so none comes twice
  have hkeys : (([] : List (String × String)) ++ p.params.toList).Pairwise (·.1 ≠ ·.1) :=
    p.params.ascending.imp fun hlt => Std.ne_of_lt hlt
  have htable := Document.add?_table p.lookup_params_topEntries
  have hentries := Document.foldlM_add?_entries p.lookup_params_topEntries hkeys
  -- the statements are carried out in their order
  unfold Document.read? write
  simp only [String.toList_ofList, if_neg hhead, statements?_writeChars p hlines]
  simp only [bind, Option.bind, List.foldlM_append, foldlM_add?_topEntries, List.foldlM_cons,
    htable]
  have hempty : textEntries [] = [] := rfl
  rw [hempty] at hentries
  rw [hentries]
  rfl

/-- Entries that are all strings are read entry by entry. -/
theorem mapM_textEntries {f : String × Value → Option (String × String)}
    (hf : ∀ key text, f (key, .text text) = some (key, text)) (entries : List (String × String)) :
    (textEntries entries).mapM f = some entries := by
  induction entries with
  | nil => rfl
  | cons entry entries ih =>
    have hcons : textEntries (entry :: entries) =
        (entry.1, .text entry.2) :: textEntries entries := rfl
    rw [hcons, List.mapM_cons, ih, hf]
    rfl

/-- The entries of a preset are read back from their table. -/
theorem entriesOf?_textEntries (e : DynamicRange.Entries) :
    entriesOf? (.table .header (textEntries e.toList)) = some e := by
  rw [entriesOf?, mapM_textEntries fun _ _ => rfl]
  exact congrArg some e.ofList_toList

/-- The preset in a table that has its strings and its entries. -/
theorem ofTable?_of_lookup {t : Table} {p : Preset} {params : Value}
    (hname : t.entries.lookup "name" = some (.text p.name))
    (hdescription : t.entries.lookup "description" = p.description.map .text)
    (hmode : t.entries.lookup "mode" = some (.text p.mode.name))
    (hparams : t.entries.lookup "params" = some params)
    (hentries : entriesOf? params = some p.params) :
    ofTable? t = some p := by
  obtain ⟨name, description, mode, entries⟩ := p
  unfold ofTable?
  -- each of the four keys is looked up, and only the description may be missing
  rw [hname, hdescription, hmode, hparams]
  simp only [hentries]
  cases description <;> cases mode <;> rfl

/-- A written preset reads back. -/
theorem read?_write (p : Preset) : read? p.write = some p := by
  -- what is written is a table with the strings and the entries of the preset
  rw [read?, read?_document, Option.bind_eq_bind, Option.bind_some]
  refine ofTable?_of_lookup ?_ ?_ ?_ ?_ (entriesOf?_textEntries p.params)
  all_goals
    unfold topEntries
    cases p.description <;> rfl

end Preset

end DynamicRange
