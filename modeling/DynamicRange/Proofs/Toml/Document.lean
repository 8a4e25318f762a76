import DynamicRange.Proofs.Toml.Quoted
import DynamicRange.Toml.Document

/-!
# Written documents read back

A document of string entries is read line by line. Each line begins with a character that can begin
a key and nothing else, so no line is taken for blanks, a comment or a header, and ends with the
break after its value.

## Key results

- `key?_writeKey`: a written key reads back
- `statement?_writeEntry`: so does a line
- `statements?_writeEntry`, `statements?_header`, `statements?_entries`: and so do all lines
-/

namespace DynamicRange.Toml

/-! ### Heads of keys and values -/

/-- Whether a character can begin a written key. -/
def beginsKey (c : Char) : Bool := isBare c || c == '"' || c == apostrophe

/-- A character that begins a key begins neither blanks, nor a comment, nor a header. -/
theorem ne_of_beginsKey {c : Char} (h : beginsKey c = true) :
    isSpace c = false ∧ c ≠ '#' ∧ c ≠ '[' ∧ c ≠ '\n' ∧ c ≠ '\r' ∧ c ≠ '\ufeff' := by
  -- none of the other characters begins a key
  refine ⟨?_, ?_, ?_, ?_, ?_, ?_⟩
  · by_cases hspace : isSpace c = true
    · simp only [isSpace, Bool.or_eq_true, beq_iff_eq] at hspace
      rcases hspace with rfl | rfl <;> exact absurd h (by decide)
    · simpa using hspace
  all_goals
    rintro rfl
    exact absurd h (by decide)

/-- A written key begins with a bare character or a quote. -/
theorem head_writeKey (cs : List Char) :
    ∃ c es, writeKey cs = c :: es ∧ beginsKey c = true := by
  unfold writeKey
  dsimp only
  -- bare, in double quotes, in single quotes, or escaped in double quotes
  split
  next h =>
    rw [Bool.and_eq_true] at h
    cases cs with
    | nil => exact absurd h.1 (by decide)
    | cons c cs =>
      have hbare : isBare c = true := List.all_eq_true.mp h.2 c List.mem_cons_self
      exact ⟨c, cs, rfl, by simp [beginsKey, hbare]⟩
  next =>
    split
    next => exact ⟨_, _, rfl, by decide⟩
    next =>
      split
      next => exact ⟨_, _, rfl, by decide⟩
      next => exact ⟨_, _, rfl, by decide⟩

/-- No spaces are dropped before a character that is none. -/
theorem dropSpaces_of_not_isSpace {c : Char} {cs : List Char} (h : isSpace c = false) :
    dropSpaces (c :: cs) = c :: cs := by
  rw [dropSpaces, List.dropWhile_cons_of_neg (by simp [h])]

/-- No spaces are dropped before a written key. -/
theorem dropSpaces_writeKey (cs rest : List Char) :
    dropSpaces (writeKey cs ++ rest) = writeKey cs ++ rest := by
  obtain ⟨c, es, hwritten, hc⟩ := head_writeKey cs
  rw [hwritten]
  exact dropSpaces_of_not_isSpace (ne_of_beginsKey hc).1

/-- A written string begins with a quote of either kind. -/
theorem head_quote (cs : List Char) :
    ∃ es, quote cs = '"' :: es ∨ quote cs = apostrophe :: es := by
  unfold quote
  dsimp only
  repeat' split
  all_goals first | exact ⟨_, .inl rfl⟩ | exact ⟨_, .inr rfl⟩

/-! ### Keys -/

/-- A key in double quotes reads back. -/
theorem key?_basic (cs rest : List Char) :
    key? (inLine '"' (encodeLine cs) ++ rest) = some (cs, rest) := by
  have hread := basic_encodeLine cs rest
  have hkey : key? ('"' :: (encodeLine cs ++ '"' :: rest)) =
      basic .line false (encodeLine cs ++ '"' :: rest) := rfl
  rw [← hkey] at hread
  simpa [inLine] using hread

/-- A key of plain characters in single quotes reads back. -/
theorem key?_literal {cs : List Char} (hplain : ∀ c ∈ cs, isPlain c = true)
    (hquote : apostrophe ∉ cs) (rest : List Char) :
    key? (inLine apostrophe cs ++ rest) = some (cs, rest) := by
  have hread := literal_line hplain hquote rest
  have hkey : key? (apostrophe :: (cs ++ apostrophe :: rest)) =
      literal .line (cs ++ apostrophe :: rest) := rfl
  rw [← hkey] at hread
  simpa [inLine] using hread

/-- A bare key reads back, up to the first character that is not bare. -/
theorem key?_bare {cs : List Char} (hne : cs ≠ []) (hbare : ∀ c ∈ cs, isBare c = true) {e : Char}
    (he : isBare e = false) (rest : List Char) : key? (cs ++ e :: rest) = some (cs, e :: rest) := by
  -- the key is the run of bare characters
  have htake : (cs ++ e :: rest).takeWhile isBare = cs := by
    rw [List.takeWhile_append_of_pos hbare, List.takeWhile_cons_of_neg (by simp [he]),
      List.append_nil]
  have hdrop : (cs ++ e :: rest).dropWhile isBare = e :: rest := by
    rw [List.dropWhile_append_of_pos hbare, List.dropWhile_cons_of_neg (by simp [he])]
  cases cs with
  | nil => exact absurd rfl hne
  | cons c cs =>
    have hc : isBare c = true := hbare c List.mem_cons_self
    rw [List.cons_append] at htake hdrop ⊢
    -- quotes are not bare, so the key begins with none
    unfold key?
    split
    next heq =>
      rw [(List.cons.inj heq).1] at hc
      exact absurd hc (by decide)
    next heq =>
      rw [(List.cons.inj heq).1] at hc
      exact absurd hc (by decide)
    next => simp only [htake, hdrop, List.isEmpty_cons, Bool.false_eq_true, if_false]

/-- A written key reads back, up to the space after it. -/
theorem key?_writeKey (cs rest : List Char) :
    key? (writeKey cs ++ ' ' :: rest) = some (cs, ' ' :: rest) := by
  unfold writeKey
  dsimp only
  -- the same cases in which the key was written
  split
  next h =>
    rw [Bool.and_eq_true, List.all_eq_true] at h
    exact key?_bare (by simpa using h.1) h.2 (by decide) rest
  next =>
    split
    next => exact key?_basic cs _
    next =>
      split
      next h =>
        rw [Bool.and_eq_true] at h
        have hverbatim : ∀ c ∈ cs, isControl c = false ∧ c ≠ '\n' := by simpa using h.1
        have hplain : ∀ c ∈ cs, isPlain c = true := fun c hc =>
          isPlain_of_not_isControl (hverbatim c hc).1 (hverbatim c hc).2
        exact key?_literal hplain (by simpa using h.2) _
      next => exact key?_basic cs _

/-- A key by itself is a path of one key. -/
theorem keyPath?_writeKey (depth : Nat) (key : String) (rest : List Char) :
    keyPath? (depth + 1) (writeKey key.toList ++ ' ' :: '=' :: rest) =
      some ([key], '=' :: rest) := by
  have hspaces : dropSpaces (' ' :: '=' :: rest) = '=' :: rest :=
    (List.dropWhile_cons_of_pos rfl).trans (dropSpaces_of_not_isSpace (by decide))
  rw [keyPath?, dropSpaces_writeKey, key?_writeKey]
  simp [hspaces]

/-! ### Lines -/

/-- A written string is read as a value. -/
theorem value?_quote (depth : Nat) (content : String) (rest : List Char) :
    value? (depth + 1) (quote content.toList ++ '\n' :: rest) =
      some (.text content, '\n' :: rest) := by
  have hread := @quoted?_quote content.toList ('\n' :: rest) (by simp) (by simp [apostrophe])
  have hvalue : value? (depth + 1) (quote content.toList ++ '\n' :: rest) =
      (quoted? (quote content.toList ++ '\n' :: rest)).map fun done =>
        (.text (String.ofList done.1), done.2) := by
    -- a quote of either kind leads to the reader of strings
    obtain ⟨es, hquote | hquote⟩ := head_quote content.toList <;> rw [hquote] <;> rfl
  rw [hvalue, hread]
  simp

/-- The line of an entry reads back, up to the line break. -/
theorem statement?_writeEntry (key content : String) (rest : List Char) :
    statement? (writeEntry key content ++ rest) =
      some (.assign [] key (.text content), '\n' :: rest) := by
  -- the line: the key, the sign between blanks, the string and the line break
  have hline : writeEntry key content ++ rest =
      writeKey key.toList ++ ' ' :: '=' :: ' ' :: (quote content.toList ++ '\n' :: rest) := by
    simp [writeEntry]
  have hvalue : dropSpaces (' ' :: (quote content.toList ++ '\n' :: rest)) =
      quote content.toList ++ '\n' :: rest := by
    rw [dropSpaces, List.dropWhile_cons_of_pos rfl]
    obtain ⟨es, hquote | hquote⟩ := head_quote content.toList <;> rw [hquote] <;> rfl
  -- the assignment is read part by part
  have hassign : assignment? (value? maxDepth) (writeEntry key content ++ rest) =
      some (([key], .text content), '\n' :: rest) := by
    rw [hline, assignment?, maxDepth, keyPath?_writeKey]
    simp [hvalue, value?_quote]
  -- a key begins no header
  obtain ⟨c, es, hkey, hc⟩ := head_writeKey key.toList
  obtain ⟨-, -, hheader, -⟩ := ne_of_beginsKey hc
  rw [hline, hkey] at hassign ⊢
  unfold statement?
  split
  next heq => exact absurd (List.cons.inj heq).1 hheader
  next heq => exact absurd (List.cons.inj heq).1 hheader
  next =>
    rw [hassign]
    rfl

/-- Nothing is skipped before a character that begins neither blanks nor a comment. -/
theorem skipBlanks_of_ne {c : Char} {cs : List Char} (hspace : isSpace c = false)
    (hcomment : c ≠ '#') (hfeed : c ≠ '\n') (hreturn : c ≠ '\r') :
    skipBlanks (c :: cs) = c :: cs := by
  -- the character does not end the line
  have hbreak : afterBreak? (c :: cs) = none := by
    unfold afterBreak?
    split
    next heq => exact absurd (List.cons.inj heq).1 hfeed
    next heq => exact absurd (List.cons.inj heq).1 hreturn
    next => rfl
  have hline : ∀ fuel, skipLines fuel (c :: cs) = c :: cs := by
    intro fuel
    cases fuel with
    | zero => rfl
    | succ fuel =>
      rw [skipLines, dropSpaces_of_not_isSpace hspace]
      simp [hcomment, hbreak]
  exact hline _

/-- A statement that stands first is read first, and the others follow. -/
theorem statements?_of_statement {fuel : Nat} {c : Char} {text cs rest : List Char} {st : Statement}
    (hskip : skipBlanks text = c :: cs) (hcomment : c ≠ '#')
    (hst : statement? (c :: cs) = some (st, '\n' :: rest)) :
    statements? (fuel + 1) text = (statements? fuel rest).map (st :: ·) := by
  have hafter : afterLine? ('\n' :: rest) = some rest := rfl
  -- the text is not at its end and not in a comment, so a statement is read
  rw [statements?, hskip]
  split
  next heq => exact nomatch heq
  next heq => exact absurd (List.cons.inj heq).1 hcomment
  next =>
    simp only [hst, hafter, bind, Option.bind]
    cases statements? fuel rest <;> rfl

/-- The first line of a document of entries is an assignment. -/
theorem statements?_writeEntry (fuel : Nat) (key content : String) (rest : List Char) :
    statements? (fuel + 1) (writeEntry key content ++ rest) =
      (statements? fuel rest).map (.assign [] key (.text content) :: ·) := by
  have hst := statement?_writeEntry key content rest
  obtain ⟨c, es, hkey, hc⟩ := head_writeKey key.toList
  obtain ⟨hspace, hcomment, -, hfeed, hreturn, -⟩ := ne_of_beginsKey hc
  have hline : ∃ cs, writeEntry key content ++ rest = c :: cs := by
    simp [writeEntry, hkey]
  obtain ⟨cs, hline⟩ := hline
  -- the line is not skipped: it begins with its key
  rw [hline] at hst ⊢
  exact statements?_of_statement (skipBlanks_of_ne hspace hcomment hfeed hreturn) hcomment hst

/-- A header of a key that needs no quotes. -/
theorem statement?_header {key : List Char} (hne : key ≠ []) (hbare : ∀ c ∈ key, isBare c = true)
    (rest : List Char) :
    statement? ('[' :: (key ++ ']' :: '\n' :: rest)) =
      some (.table [] (String.ofList key), '\n' :: rest) := by
  have hread : key? (key ++ ']' :: '\n' :: rest) = some (key, ']' :: '\n' :: rest) :=
    key?_bare hne hbare (by decide) ('\n' :: rest)
  have hend : dropSpaces (']' :: '\n' :: rest) = ']' :: '\n' :: rest :=
    dropSpaces_of_not_isSpace (by decide)
  cases key with
  | nil => exact absurd rfl hne
  | cons c key =>
    have hc : beginsKey c = true := by simp [beginsKey, hbare c List.mem_cons_self]
    obtain ⟨hspace, -, hheader, -⟩ := ne_of_beginsKey hc
    have hstart : dropSpaces (c :: (key ++ ']' :: '\n' :: rest)) =
        c :: (key ++ ']' :: '\n' :: rest) := dropSpaces_of_not_isSpace hspace
    have hpath : keyPath? (maxDepth - 1) (c :: (key ++ ']' :: '\n' :: rest)) =
        some ([String.ofList (c :: key)], ']' :: '\n' :: rest) := by
      rw [List.cons_append] at hread
      rw [maxDepth, keyPath?, hstart, hread]
      simp [hend]
    unfold statement?
    -- a bare key does not begin with a bracket, so this is no header of an array
    split
    next heq => exact absurd (List.cons.inj (List.cons.inj heq).2).1 hheader
    next heq =>
      obtain rfl := (List.cons.inj heq).2
      rw [List.cons_append, hpath]
      rfl
    next hbracket => exact absurd rfl (hbracket _)

/-- A header after an empty line. -/
theorem statements?_header (fuel : Nat) {key : List Char} (hne : key ≠ [])
    (hbare : ∀ c ∈ key, isBare c = true) (rest : List Char) :
    statements? (fuel + 1) ('\n' :: '[' :: (key ++ ']' :: '\n' :: rest)) =
      (statements? fuel rest).map (.table [] (String.ofList key) :: ·) := by
  have hbreak : skipBlanks ('\n' :: '[' :: (key ++ ']' :: '\n' :: rest)) =
      skipBlanks ('[' :: (key ++ ']' :: '\n' :: rest)) := rfl
  have hbracket : skipBlanks ('[' :: (key ++ ']' :: '\n' :: rest)) =
      '[' :: (key ++ ']' :: '\n' :: rest) :=
    skipBlanks_of_ne (by decide) (by decide) (by decide) (by decide)
  exact statements?_of_statement (hbreak.trans hbracket) (by decide)
    (statement?_header hne hbare rest)

/-- Each entry takes at least one character. -/
theorem length_le_lines (entries : List (String × String)) :
    entries.length ≤ (entries.flatMap fun entry => writeEntry entry.1 entry.2).length := by
  -- the induction is on the entries, and each line ends in a break
  induction entries with
  | nil => exact Nat.le_refl 0
  | cons entry entries ih =>
    have hline : 1 ≤ (writeEntry entry.1 entry.2).length := by
      simp only [writeEntry, List.length_append, List.length_cons]
      omega
    rw [List.flatMap_cons, List.length_append, List.length_cons]
    omega

/-- Entries before other lines are read one after another. -/
theorem statements?_entries (fuel : Nat) (entries : List (String × String)) (rest : List Char) :
    statements? (fuel + entries.length)
        (entries.flatMap (fun entry => writeEntry entry.1 entry.2) ++ rest) =
      (statements? fuel rest).map
        (entries.map (fun entry => .assign [] entry.1 (.text entry.2)) ++ ·) := by
  -- the first entry is read from the first line
  induction entries with
  | nil => simp
  | cons entry entries ih =>
    rw [List.flatMap_cons, List.append_assoc, List.length_cons, ← Nat.add_assoc,
      statements?_writeEntry, ih, Option.map_map]
    rfl

end DynamicRange.Toml
