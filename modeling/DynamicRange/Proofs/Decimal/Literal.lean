import DynamicRange.Proofs.Decimal.Positional
import DynamicRange.Proofs.Text

/-!
# What number literals are made of

A literal has only digits, signs, points and the letters of its exponent and its words. None of them
is a blank, and their case does not matter.

## Key results

- `mem_of_single?`: the characters of a literal
- `single?_lower`: a literal in lower case has the same value
- `boundedNatural?_spec`: a natural number has no letters at all
-/

namespace DynamicRange.Decimal

open Text (lower lower_cons toLower_eq_iff of_isUpper)

/-- The characters of literals, in lower case. -/
def literalCharacters : List Char := "0123456789+-.einftya".toList

variable {cs : List Char}

/-- A digit is one of the characters of literals. -/
theorem mem_of_isDigit {c : Char} (h : c.isDigit = true) : c.toLower ∈ literalCharacters := by
  have hmem := mem_numerals_of_isDigit h
  rw [toLower_of_mem_numerals hmem]
  have hall : numerals.all (literalCharacters.contains ·) = true := by decide
  simpa using List.all_eq_true.mp hall c hmem

/-- No literal has a blank. -/
theorem isBlank_eq_false {c : Char} (h : c.toLower ∈ literalCharacters) :
    Text.isBlank c = false := by
  have hall : literalCharacters.all (fun d => !Text.isBlank d) = true := by decide
  rw [← Text.isBlank_toLower]
  simpa using List.all_eq_true.mp hall _ h

/-! ### Digits -/

/-- A letter in lower case is no more a digit than in upper case. -/
theorem isDigit_toLower (c : Char) : c.toLower.isDigit = c.isDigit := by
  by_cases h : c.isUpper = true
  -- of the characters only the 26 capitals are changed, and none of them is a digit
  · apply of_isUpper (p := fun c => c.toLower.isDigit = c.isDigit) _ h
    decide
  · rw [Char.toLower_eq_of_not_isUpper h]

/-- Digits are the same in lower case. -/
theorem lower_of_isDigit (h : ∀ c ∈ cs, c.isDigit = true) : lower cs = cs := by
  induction cs with
  | nil => rfl
  | cons c cs ih =>
    have hc := toLower_of_mem_numerals (mem_numerals_of_isDigit (h c List.mem_cons_self))
    rw [lower_cons, hc, ih fun d hd => h d (List.mem_cons_of_mem _ hd)]

/-- The digits at the start of a text are the same in lower case, and the rest is in lower case. -/
theorem splitDigits_lower (cs : List Char) :
    splitDigits (lower cs) = ((splitDigits cs).1, lower (splitDigits cs).2) := by
  have hsame : Char.isDigit ∘ Char.toLower = Char.isDigit := funext isDigit_toLower
  have hdigits : lower (cs.takeWhile Char.isDigit) = cs.takeWhile Char.isDigit :=
    lower_of_isDigit fun _ hc => List.mem_takeWhile_imp hc
  simp only [splitDigits]
  -- the run of digits ends at the same place, because the test does not see the case
  rw [lower, List.takeWhile_map, List.dropWhile_map, hsame]
  exact congrArg (·, _) hdigits

/-- A natural number is made of digits only. -/
theorem natural?_eq_some {n : Nat} (h : natural? cs = some n) : ∀ c ∈ cs, c.isDigit = true := by
  unfold natural? at h
  split at h
  · exact nomatch h
  · rename_i hdigits
    -- the number is read when there are characters and all of them are digits
    simp only [Bool.or_eq_true, not_or, Bool.not_eq_true', Bool.not_eq_false] at hdigits
    exact List.all_eq_true.mp hdigits.2

/-- The case of a natural number does not matter. -/
theorem natural?_lower (cs : List Char) : natural? (lower cs) = natural? cs := by
  have hsame : Char.isDigit ∘ Char.toLower = Char.isDigit := funext isDigit_toLower
  unfold natural?
  rw [lower, List.all_map, hsame, List.isEmpty_map]
  split
  · rfl
  · rename_i h
    simp only [Bool.or_eq_true, not_or, Bool.not_eq_true', Bool.not_eq_false] at h
    -- a text of digits is its own lower case
    exact congrArg (some ∘ value) (lower_of_isDigit (List.all_eq_true.mp h.2))

/-- A natural number is digits, with or without a plus. -/
theorem boundedNatural?_splits {top n : Nat} (h : boundedNatural? top cs = some n) :
    ∃ ds, (∀ c ∈ ds, c.isDigit = true) ∧ (cs = ds ∨ cs = '+' :: ds) := by
  obtain ⟨m, hm, -⟩ := Option.bind_eq_some_iff.mp h
  split at hm
  · exact ⟨_, natural?_eq_some hm, .inr rfl⟩
  · exact ⟨_, natural?_eq_some hm, .inl rfl⟩

/-- A natural number is its own lower case, and has no blank. -/
theorem boundedNatural?_spec {top n : Nat} (h : boundedNatural? top cs = some n) :
    lower cs = cs ∧ ∀ c ∈ cs, Text.isBlank c = false := by
  obtain ⟨ds, hdigits, hcs⟩ := boundedNatural?_splits h
  -- digits are characters of literals, and none of these is a blank
  have hblank : ∀ c ∈ ds, Text.isBlank c = false := fun c hc =>
    isBlank_eq_false (mem_of_isDigit (hdigits c hc))
  cases hcs with
  | inl heq =>
    rw [heq]
    exact ⟨lower_of_isDigit hdigits, hblank⟩
  | inr heq =>
    have hplus : ('+' : Char).toLower = '+' ∧ Text.isBlank '+' = false := by decide
    rw [heq, lower_cons, hplus.1, lower_of_isDigit hdigits]
    refine ⟨rfl, fun c hc => ?_⟩
    cases List.mem_cons.mp hc with
    | inl heq => exact heq ▸ hplus.2
    | inr hc => exact hblank c hc

/-! ### Signs and exponents -/

/-- A text is a sign and a rest, or has no sign. -/
theorem splitSign_cases (cs : List Char) :
    (∃ sign negative rest, sign ∈ ['+', '-'] ∧ cs = sign :: rest ∧
      splitSign cs = (negative, rest)) ∨ splitSign cs = (false, cs) := by
  unfold splitSign
  split
  · exact .inl ⟨'+', false, _, by decide, rfl, rfl⟩
  · exact .inl ⟨'-', true, _, by decide, rfl, rfl⟩
  · exact .inr rfl

/-- A sign is one of the characters of literals. -/
theorem mem_of_sign {sign : Char} (h : sign ∈ ['+', '-']) : sign.toLower ∈ literalCharacters := by
  have hall : ['+', '-'].all (fun s => literalCharacters.contains s.toLower) = true := by decide
  simpa using List.all_eq_true.mp hall sign h

/-- The case of a text does not matter for its sign. -/
theorem splitSign_lower (cs : List Char) :
    splitSign (lower cs) = ((splitSign cs).1, lower (splitSign cs).2) := by
  cases cs with
  | nil => rfl
  | cons c cs =>
    by_cases hplus : c = '+'
    · subst hplus
      rfl
    by_cases hminus : c = '-'
    · subst hminus
      rfl
    -- no other character becomes a sign in lower case
    have hplus' : c.toLower ≠ '+' := by rwa [ne_eq, toLower_eq_iff (by decide)]
    have hminus' : c.toLower ≠ '-' := by rwa [ne_eq, toLower_eq_iff (by decide)]
    simp [splitSign, hplus, hminus, hplus', hminus']

/-- The case of an exponent does not matter. -/
theorem exponent?_lower (cs : List Char) : exponent? (lower cs) = exponent? cs := by
  cases cs with
  | nil => rfl
  | cons c cs =>
    -- the mark is an e in either case
    have hmark : (c.toLower == 'e' || c.toLower == 'E') = (c == 'e' || c == 'E') := by
      by_cases h : c.isUpper = true
      · apply of_isUpper
          (p := fun c => (c.toLower == 'e' || c.toLower == 'E') = (c == 'e' || c == 'E')) _ h
        decide
      · rw [Char.toLower_eq_of_not_isUpper h]
    simp only [lower_cons, exponent?, hmark, splitSign_lower, natural?_lower]

/-- An exponent is made of its mark, a sign and digits. -/
theorem mem_of_exponent? {e : Int} (h : exponent? cs = some e) :
    ∀ c ∈ cs, c.toLower ∈ literalCharacters := by
  cases cs with
  | nil => simp
  | cons mark rest =>
    simp only [exponent?] at h
    split at h
    · rename_i hmark
      obtain ⟨_, hm, -⟩ := Option.map_eq_some_iff.mp h
      obtain ⟨n, hn, -⟩ := Option.bind_eq_some_iff.mp hm
      have hdigits := natural?_eq_some hn
      intro c hc
      rcases List.mem_cons.mp hc with rfl | hc
      · simp only [Bool.or_eq_true, beq_iff_eq] at hmark
        cases hmark with
        | inl h => rw [h]; decide
        | inr h => rw [h]; decide
      -- behind the mark there are digits, after a sign or not
      · rcases splitSign_cases rest with ⟨sign, negative, ds, hsign, rfl, hsplit⟩ | hsplit
        · rw [hsplit] at hdigits
          rcases List.mem_cons.mp hc with rfl | hc
          · exact mem_of_sign hsign
          · exact mem_of_isDigit (hdigits c hc)
        · rw [hsplit] at hdigits
          exact mem_of_isDigit (hdigits c hc)
    · cases h

/-! ### Literals -/

/-- The case of a number without a sign does not matter. -/
theorem unsigned?_lower (cs : List Char) : unsigned? (lower cs) = unsigned? cs := by
  unfold unsigned?
  simp only [splitDigits_lower]
  cases hrest : (splitDigits cs).2 with
  -- nothing is left behind the digits
  | nil => simp [exponent?]
  | cons c rest =>
    -- what is left begins with the point, or it is the exponent
    by_cases hpoint : c = '.'
    · subst hpoint
      have hlower : ('.' : Char).toLower = '.' := by decide
      simp only [lower_cons, hlower, splitDigits_lower, exponent?_lower]
    · have hpoint' : c.toLower ≠ '.' := by rwa [ne_eq, toLower_eq_iff (by decide)]
      -- no other character becomes a point in lower case
      have hexponent := exponent?_lower (c :: rest)
      rw [lower_cons] at hexponent
      simp [lower_cons, hpoint, hpoint', hexponent]

/-- The digits at the start of a text, and the rest. -/
theorem splitDigits_spec {digits rest : List Char} (h : splitDigits cs = (digits, rest)) :
    cs = digits ++ rest ∧ ∀ c ∈ digits, c.isDigit = true := by
  obtain ⟨rfl, rfl⟩ := Prod.mk.inj h
  exact ⟨List.takeWhile_append_dropWhile.symm, fun c hc => List.mem_takeWhile_imp hc⟩

/-- Digits and an exponent, or digits with a point among them and an exponent. -/
theorem unsigned?_splits {d : Decimal} (h : unsigned? cs = some d) :
    ∃ whole fraction tail e, (∀ c ∈ whole ++ fraction, c.isDigit = true) ∧
      exponent? tail = some e ∧ (cs = whole ++ tail ∨ cs = whole ++ '.' :: (fraction ++ tail)) := by
  rcases hwhole : splitDigits cs with ⟨whole, rest⟩
  obtain ⟨hcs, hdigits⟩ := splitDigits_spec hwhole
  simp only [unsigned?, hwhole] at h
  by_cases hpoint : ∃ after, rest = '.' :: after
  · -- the fraction ends where the digits after the point end
    obtain ⟨after, rfl⟩ := hpoint
    rcases hfraction : splitDigits after with ⟨fraction, tail⟩
    obtain ⟨rfl, hdigits'⟩ := splitDigits_spec hfraction
    simp only [hfraction] at h
    split at h
    · exact nomatch h
    obtain ⟨e, he, -⟩ := Option.map_eq_some_iff.mp h
    refine ⟨whole, fraction, tail, e, ?_, he, .inr hcs⟩
    intro c hc
    cases List.mem_append.mp hc with
    | inl hc => exact hdigits c hc
    | inr hc => exact hdigits' c hc
  -- without a point all the rest is the exponent
  · have hnone : ∀ after, rest ≠ '.' :: after := fun after heq => hpoint ⟨after, heq⟩
    simp only at h
    split at h
    · exact nomatch h
    obtain ⟨e, he, -⟩ := Option.map_eq_some_iff.mp h
    exact ⟨whole, [], rest, e, by simpa using hdigits, he, .inl hcs⟩

/-- A number without a sign is made of digits, the point and an exponent. -/
theorem mem_of_unsigned? {d : Decimal} (h : unsigned? cs = some d) :
    ∀ c ∈ cs, c.toLower ∈ literalCharacters := by
  obtain ⟨whole, fraction, tail, e, hdigits, htail, hcs⟩ := unsigned?_splits h
  have hends := mem_of_exponent? htail
  have hpoint : ('.' : Char).toLower ∈ literalCharacters := by decide
  intro c hc
  cases hcs with
  | inl hcs =>
    -- the digits and the exponent
    rw [hcs, List.mem_append] at hc
    cases hc with
    | inl hc => exact mem_of_isDigit (hdigits c (List.mem_append_left _ hc))
    | inr hc => exact hends c hc
  | inr hcs =>
    -- the digits, the point, the digits behind it and the exponent
    rw [hcs, List.mem_append, List.mem_cons, List.mem_append] at hc
    rcases hc with hc | rfl | hc | hc
    · exact mem_of_isDigit (hdigits c (List.mem_append_left _ hc))
    · exact hpoint
    · exact mem_of_isDigit (hdigits c (List.mem_append_right _ hc))
    · exact hends c hc

/-- A text whose lower case is a word has the characters of the word. -/
private theorem mem_of_lower_eq {word : List Char}
    (hword : word.all (literalCharacters.contains ·) = true) (h : lower cs = word) :
    ∀ c ∈ cs, c.toLower ∈ literalCharacters := by
  intro c hc
  have hmem : c.toLower ∈ word := by
    rw [← h]
    exact List.mem_map_of_mem hc
  simpa using List.all_eq_true.mp hword _ hmem

/-- A literal is made of digits, signs, points and the letters of its words. -/
theorem mem_of_single? {x : Float32} (h : single? cs = some x) :
    ∀ c ∈ cs, c.toLower ∈ literalCharacters := by
  -- the three ways to read what follows the sign: infinity, NaN and a number
  have hmagnitude : ∀ c ∈ (splitSign cs).2, c.toLower ∈ literalCharacters := by
    simp only [single?] at h
    obtain ⟨y, hy, -⟩ := Option.map_eq_some_iff.mp h
    split at hy
    · rename_i hword
      simp only [Bool.or_eq_true, beq_iff_eq] at hword
      cases hword with
      | inl hword => exact mem_of_lower_eq (by decide) hword
      | inr hword => exact mem_of_lower_eq (by decide) hword
    · split at hy
      · rename_i hword
        exact mem_of_lower_eq (by decide) (beq_iff_eq.mp hword)
      · obtain ⟨d, hd, -⟩ := Option.map_eq_some_iff.mp hy
        exact mem_of_unsigned? hd
  -- the sign, if there is one, is a character of literals too
  rcases splitSign_cases cs with ⟨sign, negative, rest, hsign, rfl, hsplit⟩ | hsplit
  · rw [hsplit] at hmagnitude
    intro c hc
    cases List.mem_cons.mp hc with
    | inl heq => exact heq ▸ mem_of_sign hsign
    | inr hc => exact hmagnitude c hc
  · rwa [hsplit] at hmagnitude

/-- The case of a literal does not matter. -/
theorem single?_lower (cs : List Char) : single? (lower cs) = single? cs := by
  unfold single?
  simp only [splitSign_lower, Text.lower_lower, unsigned?_lower]

end DynamicRange.Decimal
