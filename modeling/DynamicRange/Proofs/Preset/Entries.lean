import DynamicRange.Preset.Entries

/-!
# Laws of entries

Inserting an entry touches no other key, and in an ascending list the last of some entries is the
one whose key is not below any other.

## Key results

- `mem_insertEntry_iff`: the entries after an insertion
- `filter_insertEntry_of_neg`: a filter that drops the key does not see the insertion
- `getLast?_eq_some_iff_of_ascending`: the last entry by its key
- `Entries.mem_ofList_iff`, `Entries.ofList_toList`: entries are those of their list
-/

namespace DynamicRange

variable {key text : String} {entries : List (String × String)}

/-- Keys of an ascending list after its first one differ from that one. -/
theorem ne_of_ascending_cons {first : String × String}
    (h : (first :: entries).Pairwise (·.1 < ·.1)) {entry : String × String}
    (hentry : entry ∈ entries) : entry.1 ≠ first.1 :=
  fun heq => String.lt_irrefl _ (heq ▸ List.rel_of_pairwise_cons h hentry)

/-- After an insertion there are the new entry and those of other keys. -/
theorem mem_insertEntry_iff (h : entries.Pairwise (·.1 < ·.1)) {entry : String × String} :
    entry ∈ insertEntry key text entries ↔
      entry = (key, text) ∨ entry ∈ entries ∧ entry.1 ≠ key := by
  induction entries with
  | nil => simp [insertEntry]
  | cons first rest ih =>
    simp only [insertEntry]
    split
    next less =>
      -- the key is below all others
      have hne : ∀ e ∈ first :: rest, e.1 ≠ key := by
        intro e he heq
        rcases List.mem_cons.mp he with rfl | he
        · exact String.lt_irrefl _ (heq ▸ less)
        · have hlt := List.rel_of_pairwise_cons h he
          exact String.lt_irrefl _ (String.lt_trans less (heq ▸ hlt))
      rw [List.mem_cons]
      exact or_congr_right ⟨fun he => ⟨he, hne _ he⟩, And.left⟩
    -- the key is not below the first one: it is the first one, or it comes behind it
    next notLess =>
      split
      -- the first entry is replaced
      next same =>
        subst same
        rw [List.mem_cons, List.mem_cons]
        refine or_congr_right ⟨fun he => ⟨.inr he, ne_of_ascending_cons h he⟩, ?_⟩
        rintro ⟨rfl | he, hne⟩
        · exact absurd rfl hne
        · exact he
      -- the first entry stays, and the insertion is made in the rest
      next other =>
        rw [List.mem_cons, List.mem_cons, ih (List.Pairwise.of_cons h)]
        constructor
        · rintro (rfl | rfl | ⟨he, hne⟩)
          · exact .inr ⟨.inl rfl, Ne.symm other⟩
          · exact .inl rfl
          · exact .inr ⟨.inr he, hne⟩
        · rintro (rfl | ⟨rfl | he, hne⟩)
          · exact .inr (.inl rfl)
          · exact .inl rfl
          · exact .inr (.inr ⟨he, hne⟩)

/-- A filter that drops all entries of the key does not see the insertion. -/
theorem filter_insertEntry_of_neg (p : String × String → Bool)
    (hkey : ∀ text, p (key, text) = false) :
    (insertEntry key text entries).filter p = entries.filter p := by
  induction entries with
  | nil => simp [insertEntry, hkey]
  | cons first rest ih =>
    simp only [insertEntry]
    -- put in front, put in the place of the first entry, or put in the rest
    split
    · rw [List.filter_cons_of_neg (by simp [hkey])]
    · split
      next same =>
        have hfirst : p first = false := by
          subst same
          exact hkey first.2
        rw [List.filter_cons_of_neg (by simp [hkey]), List.filter_cons_of_neg (by simp [hfirst])]
      next => rw [List.filter_cons, List.filter_cons, ih]

/-- In an ascending list the last entry is the one whose key is not below any other. -/
theorem getLast?_eq_some_iff_of_ascending (h : entries.Pairwise (·.1 < ·.1))
    {entry : String × String} :
    entries.getLast? = some entry ↔
      entry ∈ entries ∧ ∀ other ∈ entries, ¬entry.1 < other.1 := by
  constructor
  -- the last entry is above those in front of it, and not above itself
  · intro hlast
    obtain ⟨front, rfl⟩ := List.getLast?_eq_some_iff.mp hlast
    refine ⟨List.mem_append_right _ List.mem_cons_self, fun other hother hlt => ?_⟩
    rcases List.mem_append.mp hother with hother | hother
    · have hbelow := (List.pairwise_append.mp h).2.2 other hother entry List.mem_cons_self
      exact String.lt_irrefl _ (String.lt_trans hlt hbelow)
    · obtain rfl := List.mem_singleton.mp hother
      exact String.lt_irrefl _ hlt
  · rintro ⟨hentry, hgreatest⟩
    obtain ⟨front, last, rfl⟩ := List.eq_nil_or_concat entries |>.resolve_left
      (List.ne_nil_of_mem hentry)
    rw [List.concat_eq_append] at h hentry hgreatest ⊢
    rcases List.mem_append.mp hentry with hfront | hlast
    · -- an entry in front is below the last one
      have hlt := (List.pairwise_append.mp h).2.2 entry hfront last List.mem_cons_self
      exact absurd hlt (hgreatest last (List.mem_append_right _ List.mem_cons_self))
    · obtain rfl := List.mem_singleton.mp hlast
      exact List.getLast?_concat ..

/-- Entries of distinct keys are all there after they were added one after another. -/
theorem mem_foldl_insert_iff {e : Entries} (h : entries.Pairwise (·.1 ≠ ·.1))
    {entry : String × String} :
    entry ∈ (entries.foldl (fun e entry => e.insert entry.1 entry.2) e).toList ↔
      entry ∈ entries ∨ entry ∈ e.toList ∧ ∀ other ∈ entries, entry.1 ≠ other.1 := by
  -- one entry after another; a later one is under another key
  induction entries generalizing e with
  | nil => simp
  | cons first rest ih =>
    obtain ⟨hfirst, hrest⟩ := List.pairwise_cons.mp h
    have hinsert : entry ∈ (e.insert first.1 first.2).toList ↔
        entry = first ∨ entry ∈ e.toList ∧ entry.1 ≠ first.1 :=
      mem_insertEntry_iff e.ascending
    -- what the first entry replaced, and what the others replace
    rw [List.foldl_cons, ih hrest, hinsert, List.mem_cons, List.forall_mem_cons]
    constructor
    · rintro (hmem | ⟨rfl | ⟨hmem, hne⟩, hothers⟩)
      · exact .inl (.inr hmem)
      · exact .inl (.inl rfl)
      · exact .inr ⟨hmem, hne, hothers⟩
    · rintro ((rfl | hmem) | ⟨hmem, hne, hothers⟩)
      · exact .inr ⟨.inl rfl, fun other hother => hfirst other hother⟩
      · exact .inl hmem
      · exact .inr ⟨.inr ⟨hmem, hne⟩, hothers⟩

/-- The entries of a list of distinct keys are those of the list. -/
theorem Entries.mem_ofList_iff (h : entries.Pairwise (·.1 ≠ ·.1)) {entry : String × String} :
    entry ∈ (ofList entries).toList ↔ entry ∈ entries := by
  rw [ofList, mem_foldl_insert_iff h]
  simp [empty]

/-- An entry above all others is added at the end. -/
theorem insertEntry_of_forall_lt
    (h : ∀ entry ∈ entries, entry.1 < key) :
    insertEntry key text entries = entries ++ [(key, text)] := by
  -- the key is above the first one, so that the entry goes into the rest
  induction entries with
  | nil => rfl
  | cons first rest ih =>
    have hfirst := h first List.mem_cons_self
    have hless : ¬key < first.1 := fun hlt => String.lt_irrefl _ (String.lt_trans hlt hfirst)
    have hne : ¬key = first.1 := fun heq => String.lt_irrefl _ (heq ▸ hfirst)
    rw [insertEntry, if_neg hless, if_neg hne,
      ih fun entry hentry => h entry (List.mem_cons_of_mem _ hentry)]
    rfl

/-- Entries in ascending order are added one after another. -/
theorem toList_foldl_insert {e : Entries}
    (h : (e.toList ++ entries).Pairwise (·.1 < ·.1)) :
    (entries.foldl (fun e entry => e.insert entry.1 entry.2) e).toList = e.toList ++ entries := by
  -- each entry is above those that are there already
  induction entries generalizing e with
  | nil => exact (List.append_nil _).symm
  | cons entry entries ih =>
    have hlast : (e.insert entry.1 entry.2).toList = e.toList ++ [entry] :=
      insertEntry_of_forall_lt fun other hother =>
        (List.pairwise_append.mp h).2.2 other hother entry List.mem_cons_self
    rw [List.foldl_cons, ih (by rw [hlast, List.append_assoc]; exact h), hlast, List.append_assoc]
    rfl

/-- Entries are those of their list. -/
theorem Entries.ofList_toList (e : Entries) : Entries.ofList e.toList = e := by
  have hlist := @toList_foldl_insert e.toList .empty e.ascending
  obtain ⟨entries, hascending⟩ := e
  rw [Entries.ofList]
  generalize List.foldl _ _ _ = e' at hlist
  obtain ⟨entries', hascending'⟩ := e'
  obtain rfl : entries' = entries := hlist
  rfl

end DynamicRange
