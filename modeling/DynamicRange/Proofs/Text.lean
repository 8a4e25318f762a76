import Mathlib
import DynamicRange.Text.Blank
import DynamicRange.Text.Case
import DynamicRange.Text.Ending

/-!
# Laws of texts

Trimming takes off the blanks around a text, whatever they are, and nothing else. Lower case changes
no blank, so it commutes with trimming. An ending is taken off a text exactly when the text is
something before that ending.

## Key results

- `Text.exists_around`, `Text.trim_around`: what trimming takes off
- `Text.trim_lower`: trimming and lower case
- `Text.dropEnding?_eq_some_iff`, `Text.dropEnding?_append_eq_none`: endings
-/

namespace DynamicRange.Text

/-! ### Blanks -/

/-- A text of blanks only. -/
def AllBlank (cs : List Char) : Prop := ∀ c ∈ cs, isBlank c = true

/-- A text that neither begins nor ends with a blank. -/
structure Bare (cs : List Char) : Prop where
  head : ∀ c ∈ cs.head?, isBlank c = false
  last : ∀ c ∈ cs.getLast?, isBlank c = false

variable {cs before after : List Char}

/-- Blanks in reverse are blanks. -/
theorem AllBlank.reverse (h : AllBlank cs) : AllBlank cs.reverse := by
  intro c hc
  exact h c (by simpa using hc)

/-- Blanks after blanks are blanks. -/
theorem AllBlank.append (h : AllBlank before) (h' : AllBlank after) : AllBlank (before ++ after) := by
  intro c hc
  cases List.mem_append.mp hc with
  | inl hc => exact h c hc
  | inr hc => exact h' c hc

/-- Blanks before a text do not show once the blanks at its start are taken off. -/
private theorem dropWhile_before (h : AllBlank before) (cs : List Char) :
    (before ++ cs).dropWhile isBlank = cs.dropWhile isBlank := by
  induction before with
  | nil => rfl
  | cons c before ih =>
    have hc : isBlank c = true := h c List.mem_cons_self
    rw [List.cons_append, List.dropWhile_cons_of_pos hc]
    exact ih fun d hd => h d (List.mem_cons_of_mem _ hd)

/-- Of a text of blanks nothing is left. -/
private theorem dropWhile_eq_nil (h : AllBlank cs) : cs.dropWhile isBlank = [] := by
  simpa using dropWhile_before h []

/-- Blanks after a text stay, unless there is nothing before them. -/
private theorem dropWhile_after (cs after : List Char) :
    (cs ++ after).dropWhile isBlank =
      if cs.dropWhile isBlank = [] then after.dropWhile isBlank
      else cs.dropWhile isBlank ++ after := by
  induction cs with
  | nil => simp
  | cons c cs ih =>
    by_cases hc : isBlank c = true
    · simpa [List.dropWhile_cons_of_pos hc] using ih
    · simp [List.dropWhile_cons_of_neg hc]

/-- Blanks around a text do not show once it is trimmed. -/
theorem trim_around (hbefore : AllBlank before) (hafter : AllBlank after) (cs : List Char) :
    trim (before ++ cs ++ after) = trim cs := by
  have hstart : (before ++ cs ++ after).dropWhile isBlank = (cs ++ after).dropWhile isBlank := by
    rw [List.append_assoc, dropWhile_before hbefore]
  unfold trim
  -- a text of blanks alone is gone with the blanks before it; otherwise its end is what is trimmed
  rw [hstart, dropWhile_after]
  by_cases hnil : cs.dropWhile isBlank = []
  · simp [hnil, dropWhile_eq_nil hafter]
  · rw [if_neg hnil, List.reverse_append, dropWhile_before hafter.reverse]

/-- Trimming takes blanks off, and nothing else. -/
theorem exists_around (cs : List Char) :
    ∃ before after, AllBlank before ∧ AllBlank after ∧ cs = before ++ trim cs ++ after := by
  have hblank : ∀ ds : List Char, AllBlank (ds.takeWhile isBlank) :=
    fun _ _ hc => List.mem_takeWhile_imp hc
  refine ⟨cs.takeWhile isBlank, ((cs.dropWhile isBlank).reverse.takeWhile isBlank).reverse,
    hblank cs, (hblank _).reverse, ?_⟩
  rw [trim, List.append_assoc, ← List.reverse_append, List.takeWhile_append_dropWhile,
    List.reverse_reverse, List.takeWhile_append_dropWhile]

/-- A text that neither begins nor ends with a blank is not trimmed. -/
theorem trim_of_bare (h : Bare cs) : trim cs = cs := by
  have hkeep : ∀ ds : List Char, (∀ c ∈ ds.head?, isBlank c = false) →
      ds.dropWhile isBlank = ds := by
    intro ds hds
    cases ds with
    | nil => rfl
    | cons d ds => exact List.dropWhile_cons_of_neg (by simp [hds d rfl])
  have hlast : ∀ c ∈ cs.reverse.head?, isBlank c = false := by simpa using h.last
  rw [trim, hkeep cs h.head, hkeep _ hlast, List.reverse_reverse]

/-- A text without blanks is not trimmed. -/
theorem bare_of_forall (h : ∀ c ∈ cs, isBlank c = false) : Bare cs where
  head c hc := h c (List.mem_of_mem_head? hc)
  last c hc := h c (List.mem_of_getLast? hc)

/-! ### Lower case -/

/-- A property of the 26 capital letters is one of every capital letter. -/
theorem of_isUpper {p : Char → Prop} (h : ∀ n < 26, p (Char.ofNat (65 + n))) {c : Char}
    (hc : c.isUpper = true) : p c := by
  obtain ⟨hge, hle⟩ := of_decide_eq_true hc
  have hlow : 65 ≤ c.toNat := UInt32.le_iff_toNat_le.mp hge
  have hhigh : c.toNat ≤ 90 := UInt32.le_iff_toNat_le.mp hle
  have hp := h (c.toNat - 65) (by omega)
  rwa [Nat.add_sub_cancel' hlow, Char.ofNat_toNat] at hp

/-- Neither a capital letter nor its small one is a blank. -/
theorem isBlank_toLower (c : Char) : isBlank c.toLower = isBlank c := by
  by_cases h : c.isUpper = true
  -- there are few enough capital letters to look at all of them
  · apply of_isUpper (p := fun c => isBlank c.toLower = isBlank c) _ h
    decide
  · rw [Char.toLower_eq_of_not_isUpper h]

/-- What is no letter is not made by lowering. -/
theorem toLower_eq_iff {c d : Char} (hd : d.isAlpha = false) : c.toLower = d ↔ c = d := by
  have hkeep : ∀ c : Char, c.isAlpha = false → c.toLower = c := by
    intro c hc
    apply Char.toLower_eq_of_not_isUpper
    simp_all [Char.isAlpha]
  constructor
  · rintro rfl
    rw [Char.isAlpha_toLower_eq_isAlpha] at hd
    exact (hkeep c hd).symm
  · rintro rfl
    exact hkeep c hd

/-- The lower case of nothing is nothing. -/
@[simp] theorem lower_nil : lower [] = [] := rfl

/-- The lower case of a text, character by character. -/
@[simp] theorem lower_cons (c : Char) (cs : List Char) : lower (c :: cs) = c.toLower :: lower cs :=
  rfl

/-- The lower case of two texts in turn. -/
@[simp] theorem lower_append (cs ds : List Char) : lower (cs ++ ds) = lower cs ++ lower ds :=
  List.map_append

/-- Lower case has none below it. -/
@[simp] theorem lower_lower (cs : List Char) : lower (lower cs) = lower cs := by
  simp [lower]

/-- A text without letters is the lower case of no other text. -/
theorem lower_eq_iff {ds : List Char} (h : ∀ c ∈ ds, c.isAlpha = false) : lower cs = ds ↔ cs = ds := by
  induction ds generalizing cs with
  | nil => simp [lower]
  | cons d ds ih =>
    have hd : d.isAlpha = false := h d List.mem_cons_self
    cases cs with
    | nil => simp
    | cons c cs => simp [toLower_eq_iff hd, ih fun e he => h e (List.mem_cons_of_mem _ he)]

/-- Blanks are the same before and after lowering, so the same are taken off. -/
private theorem dropWhile_lower (cs : List Char) :
    (lower cs).dropWhile isBlank = lower (cs.dropWhile isBlank) := by
  have hsame : isBlank ∘ Char.toLower = isBlank := funext isBlank_toLower
  rw [lower, List.dropWhile_map, hsame]
  rfl

/-- Lower case changes no blank. -/
theorem trim_lower (cs : List Char) : trim (lower cs) = lower (trim cs) := by
  have hreverse : ∀ ds : List Char, (lower ds).reverse = lower ds.reverse := fun ds =>
    List.map_reverse.symm
  simp only [trim, dropWhile_lower, hreverse]

/-! ### Endings -/

variable {ending unit : List Char}

/-- An ending is taken off just the texts that have it. -/
theorem dropEnding?_eq_some_iff : dropEnding? ending cs = some before ↔ cs = before ++ ending := by
  unfold dropEnding?
  constructor
  · intro h
    split at h
    · rename_i hsuffix
      obtain ⟨rest, rfl⟩ := List.isSuffixOf_iff_suffix.mp hsuffix
      simp at h
      rw [h]
    · exact nomatch h
  · rintro rfl
    simp [List.isSuffixOf_iff_suffix]

/-- A text that lacks a character of the ending does not end in it. -/
theorem dropEnding?_eq_none {c : Char} (hending : c ∈ ending) (hcs : c ∉ cs) :
    dropEnding? ending cs = none := by
  refine if_neg fun hsuffix => hcs ?_
  exact (List.isSuffixOf_iff_suffix.mp hsuffix).subset hending

/-- Whether a text that ends in `unit`, after characters that are not foreign, can never be taken for
one that ends in `ending`. -/
def toldApart (foreign : Char → Bool) (ending unit : List Char) : Bool :=
  !ending.isSuffixOf unit && (dropEnding? unit ending).all fun before => before.any foreign

/-- A text that ends in one unit does not end in one that is told apart from it. -/
theorem dropEnding?_append_eq_none {foreign : Char → Bool}
    (h : toldApart foreign ending unit = true) (hcs : ∀ c ∈ cs, foreign c = false) :
    dropEnding? ending (cs ++ unit) = none := by
  simp only [toldApart, Bool.and_eq_true, Bool.not_eq_true', ← Bool.not_eq_true,
    List.isSuffixOf_iff_suffix] at h
  obtain ⟨hsuffix, hforeign⟩ := h
  apply Option.eq_none_iff_forall_ne_some.mpr
  intro rest hrest
  rcases List.append_eq_append_iff.mp (dropEnding?_eq_some_iff.mp hrest) with
    ⟨more, -, hunit⟩ | ⟨more, hcs', hending⟩
  · -- the ending would be part of the unit
    exact hsuffix ⟨more, hunit.symm⟩
  · -- the ending would begin before the unit, with a character that is not foreign
    rw [dropEnding?_eq_some_iff.mpr hending] at hforeign
    simp only [Option.all_some, List.any_eq_true] at hforeign
    obtain ⟨c, hc, hc'⟩ := hforeign
    have hnot := hcs c (by rw [hcs']; exact List.mem_append_right _ hc)
    simp [hnot] at hc'

end DynamicRange.Text
