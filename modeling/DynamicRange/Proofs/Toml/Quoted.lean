import DynamicRange.Toml.Quoted

/-!
# Quoted text reads back

Every text can be quoted, and its written form reads back to it, whatever follows on later lines.
The reader takes characters off one by one, and at each of them first looks for the closing quotes.
In a block these are three quotes; content quotes just before them belong to the same run, which is
why no run inside the content may be longer than two.

## Key results

- `closing?_block`: where a block of short runs closes
- `basic_encodeLine`, `literal_line`, `basic_encodeBlock`, `literal_block`: the four kinds of
  content
- `quoted?_quote`: the written form of a text reads back
-/

namespace DynamicRange.Toml

/-! ### Steps of the readers -/

section Steps

variable {form : Form} {skipping : Bool} {c e : Char} {rest more : List Char}

/-- A character other than the quote closes nothing. -/
theorem closing?_of_ne {quote : Char} (h : c ≠ quote) : closing? quote form (c :: rest) = none := by
  cases form with
  | line => simp [closing?, h]
  | block => simp [closing?, h]

/-- A closing quote ends a basic string. -/
theorem basic_of_closing {done : List Char × List Char}
    (h : closing? '"' form (c :: rest) = some done) :
    basic form skipping (c :: rest) = some done := by
  rw [basic.eq_def]
  simp only [h]

/-- A plain character stands for itself in a basic string. -/
theorem basic_plain (h : closing? '"' form (c :: rest) = none) (hslash : c ≠ '\\')
    (hplain : isPlain c = true) :
    basic form false (c :: rest) = prepend (some c) (basic form false rest) := by
  rw [basic.eq_def]
  simp [h, hslash, hplain]

/-- The letters that stand for one character after a backslash. -/
def escapeLetters : List Char := ['b', 't', 'n', 'f', 'r', '"', '\\']

/-- A letter escape stands for one character. In a block a backslash may also join lines, but the
letter of an escape begins no line break. -/
theorem basic_escape (he : e ∈ escapeLetters) :
    basic form false ('\\' :: e :: more) = prepend (unescape? e) (basic form false more) := by
  have hnone : closing? '"' form ('\\' :: e :: more) = none := closing?_of_ne (by decide)
  obtain ⟨hu, hU, hline⟩ : e ≠ 'u' ∧ e ≠ 'U' ∧ endsLine (e :: more) = false := by
    simp only [escapeLetters, List.mem_cons, List.not_mem_nil, or_false] at he
    rcases he with rfl | rfl | rfl | rfl | rfl | rfl | rfl <;> exact ⟨by decide, by decide, rfl⟩
  rw [basic.eq_def]
  simp only [hnone]
  -- nothing is skipped, and of the backslash only the escape by a letter is left
  split
  next hskip => exact nomatch hskip
  next =>
    split
    next hslash =>
      split
      next hnil => exact nomatch hnil
      -- a code escape has a letter of its own
      next heq => exact absurd (List.cons.inj heq).1 hu
      next heq => exact absurd (List.cons.inj heq).1 hU
      next heq =>
        obtain ⟨rfl, rfl⟩ := List.cons.inj heq
        rw [hline]
        exact if_neg fun hjoins => Bool.false_ne_true hjoins.2
    next hslash => exact absurd rfl hslash

/-- A code escape stands for the character with that code. -/
theorem basic_code {a b d : Char} :
    basic form false ('\\' :: 'u' :: a :: b :: c :: d :: more) =
      prepend (codePoint? [a, b, c, d]) (basic form false more) := by
  have hnone : closing? '"' form ('\\' :: 'u' :: a :: b :: c :: d :: more) = none :=
    closing?_of_ne (by decide)
  rw [basic.eq_def]
  simp [hnone]

/-- A line feed stands for itself in a block. -/
theorem basic_break :
    basic .block false ('\n' :: rest) = prepend (some '\n') (basic .block false rest) := by
  have hnone : closing? '"' .block ('\n' :: rest) = none := closing?_of_ne (by decide)
  have hplain : isPlain '\n' = false := by decide
  rw [basic.eq_def]
  simp [hnone, hplain, breaksLine]

/-- A closing quote ends a literal string. -/
theorem literal_of_closing {done : List Char × List Char}
    (h : closing? apostrophe form (c :: rest) = some done) :
    literal form (c :: rest) = some done := by
  rw [literal.eq_def]
  simp only [h]

/-- A plain character stands for itself in a literal string. -/
theorem literal_plain (h : closing? apostrophe form (c :: rest) = none)
    (hplain : isPlain c = true) :
    literal form (c :: rest) = prepend (some c) (literal form rest) := by
  rw [literal.eq_def]
  simp [h, hplain]

/-- A line feed stands for itself in a literal block. -/
theorem literal_break (h : closing? apostrophe .block ('\n' :: rest) = none) :
    literal .block ('\n' :: rest) = prepend (some '\n') (literal .block rest) := by
  have hplain : isPlain '\n' = false := by decide
  rw [literal.eq_def]
  simp [h, hplain, breaksLine]

end Steps

/-! ### Characters -/

section Characters

variable {c : Char}

/-- A character that is no control and no line feed is plain. -/
theorem isPlain_of_not_isControl (h : isControl c = false) (hbreak : c ≠ '\n') :
    isPlain c = true := by
  -- a control is below the blank, but for the tab and the line feed, or it is the delete
  simp only [isControl, Bool.or_eq_false_iff, Bool.and_eq_false_iff, bne_eq_false_iff_eq,
    decide_eq_false_iff_not, beq_eq_false_iff_ne] at h
  obtain ⟨(hspace | rfl) | hfeed, hdelete⟩ := h
  · simp [isPlain, Char.not_lt.mp hspace, hdelete]
  · rfl
  · exact absurd hfeed hbreak

/-- A control lies in the first 128 characters, where its escape reads back. -/
theorem codePoint?_of_isControl (h : isControl c = true) :
    codePoint? ['0', '0', (Nat.digitChar (c.toNat / 16)).toUpper,
      (Nat.digitChar (c.toNat % 16)).toUpper] = some c := by
  -- all the codes in question are few
  have hall : ∀ n < 128, codePoint? ['0', '0', (Nat.digitChar (n / 16)).toUpper,
      (Nat.digitChar (n % 16)).toUpper] = some (Char.ofNat n) := by
    decide
  have hlt : c.toNat < 128 := by
    simp only [isControl, Bool.or_eq_true, Bool.and_eq_true, decide_eq_true_eq, beq_iff_eq] at h
    rcases h with ⟨⟨hspace, -⟩, -⟩ | rfl
    · have hval : c.toNat < 32 := hspace
      omega
    · decide
  rw [hall _ hlt, Char.ofNat_toNat]

/-- The three ways of writing a character: a letter escape, a code escape, and the character. -/
theorem encodeChar_cases (c : Char) :
    (∃ e ∈ escapeLetters, unescape? e = some c ∧ encodeChar c = ['\\', e]) ∨
      (isControl c = true ∧ encodeChar c = codeEscape c) ∨
      (isControl c = false ∧ c ≠ '\\' ∧ encodeChar c = [c]) := by
  -- five characters have a letter of their own
  by_cases hletter : c ∈ ['\x08', '\t', '\x0c', '\r', '\\']
  · simp only [List.mem_cons, List.not_mem_nil, or_false] at hletter
    rcases hletter with rfl | rfl | rfl | rfl | rfl
    · exact .inl ⟨'b', by decide, rfl, rfl⟩
    · exact .inl ⟨'t', by decide, rfl, rfl⟩
    · exact .inl ⟨'f', by decide, rfl, rfl⟩
    · exact .inl ⟨'r', by decide, rfl, rfl⟩
    · exact .inl ⟨'\\', by decide, rfl, rfl⟩
  · simp only [List.mem_cons, List.not_mem_nil, or_false, not_or] at hletter
    obtain ⟨hb, ht, hf, hr, hslash⟩ := hletter
    have hwritten : encodeChar c = if isControl c then codeEscape c else [c] := by
      simp [encodeChar, hb, ht, hf, hr, hslash]
    cases hcontrol : isControl c with
    | true => exact .inr (.inl ⟨rfl, by rw [hwritten, hcontrol]; rfl⟩)
    | false => exact .inr (.inr ⟨rfl, hslash, by rw [hwritten, hcontrol]; rfl⟩)

/-- The written form of a character in a basic string reads back to it. -/
theorem basic_encodeChar {form : Form} (hquote : c ≠ '"') (hbreak : c ≠ '\n')
    (more : List Char) :
    basic form false (encodeChar c ++ more) = prepend (some c) (basic form false more) := by
  rcases encodeChar_cases c with ⟨e, he, hread, hwritten⟩ | ⟨hcontrol, hwritten⟩ |
    ⟨hcontrol, hslash, hwritten⟩
  -- the letter, the code or the character is read back by its own step
  · rw [hwritten, ← hread]
    exact basic_escape he
  · rw [hwritten, ← codePoint?_of_isControl hcontrol]
    exact basic_code
  · rw [hwritten]
    exact basic_plain (closing?_of_ne hquote) hslash (isPlain_of_not_isControl hcontrol hbreak)

end Characters

/-! ### One line -/

/-- The content of a basic string on one line reads back. -/
theorem basic_encodeLine (cs rest : List Char) :
    basic .line false (encodeLine cs ++ '"' :: rest) = some (cs, rest) := by
  -- one character after another: a quote and a line feed have escapes here
  induction cs with
  | nil => exact basic_of_closing rfl
  | cons c cs ih =>
    rw [encodeLine]
    split
    next h =>
      obtain rfl := eq_of_beq h
      simp only [List.cons_append, List.nil_append]
      rw [basic_escape (by decide), ih]
      rfl
    next hquote =>
      split
      next h =>
        obtain rfl := eq_of_beq h
        simp only [List.cons_append, List.nil_append]
        rw [basic_escape (by decide), ih]
        rfl
      next hbreak =>
        rw [List.append_assoc, basic_encodeChar (by simpa using hquote) (by simpa using hbreak), ih]
        rfl

/-- A text of plain characters without single quotes reads back between single quotes. -/
theorem literal_line {cs : List Char} (hplain : ∀ c ∈ cs, isPlain c = true)
    (hquote : apostrophe ∉ cs) (rest : List Char) :
    literal .line (cs ++ apostrophe :: rest) = some (cs, rest) := by
  -- no character closes the string before its end
  induction cs with
  | nil => exact literal_of_closing rfl
  | cons c cs ih =>
    have hne : c ≠ apostrophe := fun h => hquote (h ▸ List.mem_cons_self)
    have hcs := ih (fun c hc => hplain c (List.mem_cons_of_mem _ hc))
      (fun h => hquote (List.mem_cons_of_mem _ h))
    rw [List.cons_append, literal_plain (closing?_of_ne hne) (hplain c List.mem_cons_self), hcs]
    rfl

/-! ### Blocks -/

/-- A longer run before a text does not make its longest run shorter. -/
theorem longestRun_le_succ (q : Char) (run : Nat) (cs : List Char) :
    longestRun q run cs ≤ longestRun q (run + 1) cs := by
  -- a quote makes both runs longer, any other character ends both
  induction cs generalizing run with
  | nil => exact Nat.le_succ run
  | cons c cs ih =>
    rw [longestRun, longestRun]
    split
    · exact ih (run + 1)
    · omega

/-- The run at the start of a text is not longer than the longest run. -/
theorem le_longestRun (q : Char) (run : Nat) (cs : List Char) :
    run + (cs.takeWhile (· == q)).length ≤ longestRun q run cs := by
  induction cs generalizing run with
  | nil => exact Nat.le_refl run
  | cons c cs ih =>
    rw [longestRun, List.takeWhile_cons]
    split
    next => have := ih (run + 1); simp only [List.length_cons]; omega
    next => simp only [List.length_nil]; omega

/-- The runs of a tail are not longer than those of the list. -/
theorem longestRun_tail_le (q c : Char) (cs : List Char) :
    longestRun q 0 cs ≤ longestRun q 0 (c :: cs) := by
  rw [longestRun]
  split
  · exact longestRun_le_succ q 0 cs
  · omega

/-- A block that begins with few quotes closes at once if there is nothing else in it. -/
theorem closing?_block {q : Char} {cs rest : List Char} (h : (cs.takeWhile (· == q)).length ≤ 2)
    (hrest : rest.head? ≠ some q) :
    closing? q .block (cs ++ List.replicate 3 q ++ rest) =
      if cs.all (· == q) then some (cs, rest) else none := by
  rw [closing?, List.append_assoc]
  -- nothing but quotes: they end up before the closing ones, which come last
  by_cases hall : ∀ c ∈ cs, (c == q) = true
  · have hcs : List.replicate cs.length q = cs :=
      (List.eq_replicate_iff.mpr ⟨rfl, fun c hc => eq_of_beq (hall c hc)⟩).symm
    have hwhole : (cs ++ []).takeWhile (· == q) = cs ++ [].takeWhile (· == q) :=
      List.takeWhile_append_of_pos hall
    have hnone : rest.takeWhile (· == q) = [] := by
      cases rest with
      | nil => rfl
      | cons c rest => exact List.takeWhile_cons_of_neg (by simpa using hrest)
    -- at most two quotes of the content and the three that close it
    have htake : (cs ++ (List.replicate 3 q ++ rest)).takeWhile (· == q) =
        cs ++ List.replicate 3 q := by
      rw [List.takeWhile_append_of_pos hall, List.takeWhile_append_of_pos (by simp), hnone,
        List.append_nil]
    have hlength : min 5 (cs ++ List.replicate 3 q).length = cs.length + 3 := by
      rw [List.append_nil, List.takeWhile_nil, List.append_nil] at hwhole
      rw [hwhole] at h
      simp only [List.length_append, List.length_replicate]
      omega
    have hdrop : (cs ++ (List.replicate 3 q ++ rest)).drop (cs.length + 3) = rest := by
      rw [← List.append_assoc, List.drop_left' (by simp)]
    rw [if_pos (List.all_eq_true.mpr hall)]
    simp only [htake, hlength, hdrop, Nat.add_sub_cancel, hcs]
    exact if_pos (by omega)
  -- some other character stands before the closing quotes
  · have hpart : (cs.takeWhile (· == q)).length ≠ cs.length := by
      intro hlength
      have hself := (List.takeWhile_prefix (· == q)).eq_of_length hlength
      exact hall (List.all_eq_true.mp (hself ▸ List.all_takeWhile))
    rw [if_neg (fun h => hall (List.all_eq_true.mp h)), List.takeWhile_append, if_neg hpart]
    exact if_neg (by omega)

/-- A text without controls whose runs of single quotes are short reads back from its block. -/
theorem literal_block {cs rest : List Char} (hplain : ∀ c ∈ cs, isControl c = false)
    (hrun : longestRun apostrophe 0 cs ≤ 2) (hrest : rest.head? ≠ some apostrophe) :
    literal .block (cs ++ List.replicate 3 apostrophe ++ rest) = some (cs, rest) := by
  induction cs with
  | nil => exact literal_of_closing (@closing?_block _ [] rest (Nat.zero_le 2) hrest)
  | cons c cs ih =>
    -- the run of quotes at the start is short, so it closes nothing by itself
    have hleading := le_longestRun apostrophe 0 (c :: cs)
    have hclosing := @closing?_block apostrophe (c :: cs) rest (by omega) hrest
    rw [List.cons_append, List.cons_append] at hclosing ⊢
    split at hclosing
    next =>
      -- nothing but quotes is left
      exact literal_of_closing hclosing
    next =>
      have hcs := ih (fun c hc => hplain c (List.mem_cons_of_mem _ hc))
        (Nat.le_trans (longestRun_tail_le apostrophe c cs) hrun)
      by_cases hbreak : c = '\n'
      · subst hbreak
        rw [literal_break hclosing, hcs]
        rfl
      · have hc := isPlain_of_not_isControl (hplain c List.mem_cons_self) hbreak
        rw [literal_plain hclosing hc, hcs]
        rfl

/-- The written form of a character begins with no quote and no line break. -/
theorem head_encodeChar {c : Char} (hquote : c ≠ '"') (hbreak : c ≠ '\n') :
    ∃ e es, encodeChar c = e :: es ∧ e ≠ '"' ∧ e ≠ '\n' ∧ e ≠ '\r' := by
  -- an escape begins with a backslash
  rcases encodeChar_cases c with ⟨e, -, -, hwritten⟩ | ⟨-, hwritten⟩ | ⟨hcontrol, -, hwritten⟩
  · exact ⟨_, _, hwritten, by decide⟩
  · exact ⟨_, _, hwritten, by decide⟩
  · have hreturn : c ≠ '\r' := by
      rintro rfl
      exact absurd hcontrol (by decide)
    exact ⟨_, _, hwritten, hquote, hbreak, hreturn⟩

/-- What is written for the content of a block begins with no quotes that make three with those
before it, and is the content itself if it is nothing but quotes. -/
theorem leading_encodeBlock {run : Nat} (hrun : run ≤ 2) (cs : List Char) :
    ((encodeBlock run cs).takeWhile (· == '"')).length + run ≤ 2 ∧
      ((encodeBlock run cs).all (· == '"') = true → encodeBlock run cs = cs) := by
  induction cs generalizing run with
  | nil => exact ⟨by simpa [encodeBlock] using hrun, fun _ => rfl⟩
  | cons c cs ih =>
    rw [encodeBlock]
    split
    next h =>
      obtain rfl := eq_of_beq h
      split
      next hlt =>
        -- a quote that is written as it is makes the run before the others longer
        obtain ⟨hlength, hsame⟩ := ih (Nat.succ_le_of_lt hlt)
        rw [Nat.succ_eq_add_one] at hlength hsame
        refine ⟨?_, fun hall => ?_⟩
        · rw [List.takeWhile_cons_of_pos rfl, List.length_cons]
          omega
        · rw [List.all_cons, Bool.and_eq_true] at hall
          rw [hsame hall.2]
      -- the third quote of a run is escaped, and a backslash comes first
      next => exact ⟨by simpa using hrun, by simp⟩
    next hquote =>
      split
      next h =>
        obtain rfl := eq_of_beq h
        exact ⟨by simpa using hrun, by simp⟩
      next hbreak =>
        obtain ⟨e, es, hwritten, he, -⟩ :=
          head_encodeChar (by simpa using hquote) (by simpa using hbreak)
        rw [hwritten]
        exact ⟨by simpa [he] using hrun, by simp [he]⟩

/-- The content of a basic block reads back. -/
theorem basic_encodeBlock {run : Nat} (hrun : run ≤ 2) (cs : List Char) {rest : List Char}
    (hrest : rest.head? ≠ some '"') :
    basic .block false (encodeBlock run cs ++ List.replicate 3 '"' ++ rest) = some (cs, rest) := by
  induction cs generalizing run with
  | nil => exact basic_of_closing (@closing?_block _ [] rest (Nat.zero_le 2) hrest)
  | cons c cs ih =>
    obtain ⟨hleading, hsame⟩ := leading_encodeBlock hrun (c :: cs)
    have hclosing := @closing?_block '"' (encodeBlock run (c :: cs)) rest (by omega) hrest
    -- after anything but a quote a new run begins
    have hcs := ih (Nat.zero_le 2)
    -- a quote, a line feed or any other character
    by_cases hquote : c = '"'
    · subst hquote
      by_cases hlt : run < 2
      · have hwritten : encodeBlock run ('"' :: cs) = '"' :: encodeBlock (run + 1) cs := by
          simp [encodeBlock, hlt]
        rw [hwritten] at hclosing hsame ⊢
        rw [List.cons_append, List.cons_append] at hclosing ⊢
        split at hclosing
        next hall =>
          -- the quotes that are left close the block together with its delimiter
          rw [hsame hall] at hclosing
          exact basic_of_closing hclosing
        next =>
          rw [basic_plain hclosing (by decide) (by decide), ih (Nat.succ_le_of_lt hlt)]
          rfl
      · -- the third quote of a run is escaped, which ends the run
        have hwritten : encodeBlock run ('"' :: cs) = '\\' :: '"' :: encodeBlock 0 cs := by
          simp [encodeBlock, hlt]
        rw [hwritten, List.cons_append, List.cons_append, List.cons_append, List.cons_append,
          basic_escape (by decide), hcs]
        rfl
    · by_cases hbreak : c = '\n'
      · subst hbreak
        have hwritten : encodeBlock run ('\n' :: cs) = '\n' :: encodeBlock 0 cs := by
          simp [encodeBlock]
        rw [hwritten, List.cons_append, List.cons_append, basic_break, hcs]
        rfl
      · have hwritten : encodeBlock run (c :: cs) = encodeChar c ++ encodeBlock 0 cs := by
          simp [encodeBlock, hquote, hbreak]
        rw [hwritten, List.append_assoc, List.append_assoc, basic_encodeChar hquote hbreak,
          ← List.append_assoc, hcs]
        rfl

/-! ### Any text -/

/-- A text in one quote on each side does not begin with three quotes. -/
theorem ne_of_head_ne {q : Char} {cs rest : List Char} (hcs : cs.head? ≠ some q)
    (hrest : rest.head? ≠ some q) (more : List Char) : cs ++ q :: rest ≠ q :: q :: more := by
  -- a text without characters is followed by its closing quote and what comes next
  cases cs with
  | nil =>
    intro h
    rw [(List.cons.inj h).2] at hrest
    exact hrest rfl
  | cons c cs => exact fun h => hcs (congrArg some (List.cons.inj h).1)

/-- A double quote before anything but two more begins a string on one line. -/
theorem quoted?_basic_line {cs : List Char} (h : ∀ more, cs ≠ '"' :: '"' :: more) :
    quoted? ('"' :: cs) = basic .line false cs := by
  unfold quoted?
  split
  -- two more quotes would begin a block
  next heq => exact absurd (List.cons.inj heq).2 (h _)
  next heq => rw [(List.cons.inj heq).2]
  next heq => exact absurd (List.cons.inj heq).1 (by decide)
  next heq => exact absurd (List.cons.inj heq).1 (by decide)
  next hline _ _ => exact absurd rfl (hline cs)

/-- A single quote before anything but two more begins a string on one line. -/
theorem quoted?_literal_line {cs : List Char} (h : ∀ more, cs ≠ apostrophe :: apostrophe :: more) :
    quoted? (apostrophe :: cs) = literal .line cs := by
  unfold quoted?
  split
  next heq => exact absurd (List.cons.inj heq).1 (by decide)
  next heq => exact absurd (List.cons.inj heq).1 (by decide)
  next heq => exact absurd (List.cons.inj heq).2 (h _)
  next heq => rw [(List.cons.inj heq).2]
  next hline => exact absurd rfl (hline cs)

/-- What is written on one line begins with no double quote. -/
theorem head_encodeLine (cs : List Char) : (encodeLine cs).head? ≠ some '"' := by
  cases cs with
  | nil => exact nofun
  | cons c cs =>
    rw [encodeLine]
    by_cases hquote : c = '"'
    · simp [hquote]
    · by_cases hbreak : c = '\n'
      · simp [hbreak]
      · obtain ⟨e, es, hwritten, he, -⟩ := head_encodeChar hquote hbreak
        simp [hquote, hbreak, hwritten, he]

/-- A text that is written as a basic string on one line reads back. -/
theorem quoted?_inLine_encodeLine (cs : List Char) {rest : List Char}
    (hrest : rest.head? ≠ some '"') :
    quoted? (inLine '"' (encodeLine cs) ++ rest) = some (cs, rest) := by
  -- no block is begun, so the string is on one line
  have hne := ne_of_head_ne (head_encodeLine cs) hrest
  have hread := quoted?_basic_line hne
  rw [basic_encodeLine] at hread
  simpa [inLine] using hread

/-- A text that is written as a literal string on one line reads back. -/
theorem quoted?_inLine_apostrophe {cs rest : List Char} (hplain : ∀ c ∈ cs, isPlain c = true)
    (hquote : apostrophe ∉ cs) (hrest : rest.head? ≠ some apostrophe) :
    quoted? (inLine apostrophe cs ++ rest) = some (cs, rest) := by
  have hhead : cs.head? ≠ some apostrophe := fun h => hquote (List.mem_of_mem_head? h)
  have hread := quoted?_literal_line (ne_of_head_ne hhead hrest)
  rw [literal_line hplain hquote] at hread
  simpa [inLine] using hread

/-- What follows the opening quotes of a block: its content, without the line break that a block
over several lines starts with. -/
theorem dropBreak_content {spansLines : Bool} {content : List Char} (tail : List Char)
    (h : spansLines = false → ∃ c cs, content = c :: cs ∧ c ≠ '\n' ∧ c ≠ '\r') :
    dropBreak ((if spansLines then ['\n'] else []) ++ content ++ tail) = content ++ tail := by
  cases spansLines with
  | true => rfl
  | false =>
    obtain ⟨c, cs, rfl, hfeed, hreturn⟩ := h rfl
    unfold dropBreak
    split
    next heq => exact absurd (List.cons.inj heq).1 hfeed
    next heq => exact absurd (List.cons.inj heq).1 hreturn
    next => rfl

/-- A text that is written as a basic block reads back. -/
theorem quoted?_inBlock_encodeBlock {spansLines : Bool} {cs rest : List Char}
    (hcs : spansLines = false → cs ≠ [] ∧ '\n' ∉ cs) (hrest : rest.head? ≠ some '"') :
    quoted? (inBlock '"' spansLines (encodeBlock 0 cs) ++ rest) = some (cs, rest) := by
  have hstart : spansLines = false →
      ∃ c es, encodeBlock 0 cs = c :: es ∧ c ≠ '\n' ∧ c ≠ '\r' := by
    -- what is written first is neither a line feed nor a return
    intro hline
    obtain ⟨hne, hbreak⟩ := hcs hline
    cases cs with
    | nil => exact absurd rfl hne
    | cons c cs =>
      -- a break of its own would be taken for the one after the opening quotes
      have hc : c ≠ '\n' := fun h => hbreak (h ▸ List.mem_cons_self)
      by_cases hquote : c = '"'
      · subst hquote
        exact ⟨'"', encodeBlock 1 cs, by simp [encodeBlock], by decide⟩
      · obtain ⟨e, es, hwritten, -, he⟩ := head_encodeChar hquote hc
        exact ⟨e, es ++ encodeBlock 0 cs, by simp [encodeBlock, hquote, hc, hwritten], he⟩
  have hdrop := dropBreak_content (List.replicate 3 '"' ++ rest) hstart
  -- the break after the opening quotes is dropped, and the content reads back
  have hread := basic_encodeBlock (Nat.zero_le 2) cs hrest
  rw [List.append_assoc, ← hdrop] at hread
  simp only [inBlock, List.append_assoc] at hread ⊢
  exact hread

/-- A text that is written as a literal block reads back. -/
theorem quoted?_inBlock_apostrophe {spansLines : Bool} {cs rest : List Char}
    (hcs : spansLines = false → cs ≠ [] ∧ '\n' ∉ cs) (hplain : ∀ c ∈ cs, isControl c = false)
    (hrun : longestRun apostrophe 0 cs ≤ 2) (hrest : rest.head? ≠ some apostrophe) :
    quoted? (inBlock apostrophe spansLines cs ++ rest) = some (cs, rest) := by
  -- no control is written here, so that no return comes first
  have hstart : spansLines = false → ∃ c es, cs = c :: es ∧ c ≠ '\n' ∧ c ≠ '\r' := by
    intro hline
    obtain ⟨hne, hbreak⟩ := hcs hline
    cases cs with
    | nil => exact absurd rfl hne
    | cons c cs =>
      refine ⟨c, cs, rfl, fun h => hbreak (h ▸ List.mem_cons_self), ?_⟩
      rintro rfl
      exact absurd (hplain '\r' List.mem_cons_self) (by decide)
  have hdrop := dropBreak_content (List.replicate 3 apostrophe ++ rest) hstart
  have hread := literal_block hplain hrun hrest
  rw [List.append_assoc, ← hdrop] at hread
  simp only [inBlock, List.append_assoc] at hread ⊢
  exact hread

/-- The written form of a text reads back. -/
theorem quoted?_quote (cs : List Char) {rest : List Char} (hbasic : rest.head? ≠ some '"')
    (hliteral : rest.head? ≠ some apostrophe) :
    quoted? (quote cs ++ rest) = some (cs, rest) := by
  -- without controls every character is written as it is
  have hverbatim (h : (!cs.any isControl) = true) : ∀ c ∈ cs, isControl c = false := by
    simpa using h
  unfold quote
  dsimp only
  split
  next => exact quoted?_inLine_encodeLine cs hbasic
  next hplainest =>
    -- the empty text has been written by now
    have hblock : cs.contains '\n' = false → cs ≠ [] ∧ '\n' ∉ cs := by
      intro hline
      refine ⟨fun hnil => hplainest (by simp [hnil]), ?_⟩
      simpa using hline
    split
    -- between single quotes on one line
    next h =>
      simp only [Bool.and_eq_true, Bool.not_eq_true', List.contains_eq_mem,
        decide_eq_false_iff_not] at h
      have hcontrol := hverbatim (by simpa using h.1.1)
      have hplain : ∀ c ∈ cs, isPlain c = true := fun c hc =>
        isPlain_of_not_isControl (hcontrol c hc) fun hbreak => h.2 (hbreak ▸ hc)
      exact quoted?_inLine_apostrophe hplain h.1.2 hliteral
    next =>
      split
      -- in a basic block, since the text has few double quotes in a row
      next => exact quoted?_inBlock_encodeBlock hblock hbasic
      next =>
        split
        next h =>
          rw [Bool.and_eq_true, decide_eq_true_eq] at h
          -- in a literal block, since it has few single quotes in a row
          exact quoted?_inBlock_apostrophe hblock (hverbatim h.1) h.2 hliteral
        next =>
          split
          -- escaped, in a block if the text has several lines
          next => exact quoted?_inBlock_encodeBlock (fun h => nomatch h) hbasic
          next => exact quoted?_inLine_encodeLine cs hbasic

/-! ### Texts that can be written -/

/-- A text without a quote has no run of it. -/
theorem longestRun_eq_zero {q : Char} {cs : List Char} (h : q ∉ cs) : longestRun q 0 cs = 0 := by
  induction cs with
  | nil => rfl
  | cons c cs ih =>
    obtain ⟨hne, hcs⟩ := not_or.mp (mt List.mem_cons.mpr h)
    rw [longestRun, if_neg (by simpa using Ne.symm hne), ih hcs]
    rfl

/-- A text without quotes can be written. -/
theorem isWritable_of_not_mem {cs : List Char} (hdouble : '"' ∉ cs) (hsingle : apostrophe ∉ cs) :
    isWritable cs = true := by
  rw [isWritable, longestRun_eq_zero hdouble, longestRun_eq_zero hsingle]
  rfl

end DynamicRange.Toml
