import DynamicRange.Pairing
import DynamicRange.Proofs.Frame
import DynamicRange.Proofs.Result

/-!
# Laws of a pairing

Seen from outside, a pairing is what it holds on each line. A push appends to the line, a pair
takes the same number of samples off the front of both lines, a reset drops everything. What every
operation keeps is that no slot holds an empty frame and that each slot has the format of its line.

## Key results

- `push_of_format_eq`, `push_eq_error_iff`: a push appends, and is refused exactly for its format
- `takePair_eq_none_iff`, `takePair_eq_some`: when there is a pair, and what it takes
- `WellFormed.assertionsHold`: no cut and no join of what is held can fail
-/

namespace DynamicRange

/-- One line is set, and the other stays. -/
theorem PerLine.get_set {α : Type} (p : PerLine α) (line l : Line) (a : α) :
    (p.set line a).get l = if l = line then a else p.get l := by
  cases line <;> cases l <;> rfl

namespace Pairing

/-- The samples that a line holds. -/
def held (p : Pairing) (line : Line) : List Sample :=
  ((p.slots.get line).map Frame.samples).getD []

/-- What the operations of a pairing keep. -/
structure WellFormed (p : Pairing) : Prop where
  /-- No slot holds an empty frame. -/
  samples_ne_nil : ∀ {line f}, p.slots.get line = some f → f.samples ≠ []
  /-- A slot has the format of its line. -/
  format_eq : ∀ {line f}, p.slots.get line = some f → f.format = p.formats.get line

/-- Wherever an operation joins or cuts what is held, the frames allow it. -/
structure AssertionsHold (p : Pairing) : Prop where
  /-- A frame of the format of a line can be appended to what the line holds. -/
  append : ∀ {line f g}, p.slots.get line = some f → g.format = p.formats.get line →
    f.append? g ≠ none
  /-- The span that both lines hold can be cut off either. -/
  split : ∀ {line main sidechain f}, p.slots.main = some main → p.slots.sidechain = some sidechain →
    p.slots.get line = some f → f.splitAt? (min main.length sidechain.length) ≠ none

/-! ### What a line holds -/

/-- A filled slot holds the samples of its frame. -/
theorem held_of_get {p : Pairing} {line : Line} {f : Frame} (h : p.slots.get line = some f) :
    p.held line = f.samples := by
  simp [held, h]

/-- A free slot holds no samples. -/
theorem held_of_get_none {p : Pairing} {line : Line} (h : p.slots.get line = none) :
    p.held line = [] := by
  simp [held, h]

/-- A line holds nothing exactly when its slot is free. -/
theorem WellFormed.held_eq_nil_iff {p : Pairing} (hp : p.WellFormed) (line : Line) :
    p.held line = [] ↔ p.slots.get line = none := by
  cases hslot : p.slots.get line with
  | none => simp [held, hslot]
  | some f => simp [held, hslot, hp.samples_ne_nil hslot]

/-- The channels of a line turn the number of samples held into the number of slots. -/
theorem WellFormed.pending_mul_channels {p : Pairing} (hp : p.WellFormed) (line : Line) :
    p.pending line * (p.formats.get line).channels = (p.held line).length := by
  cases hslot : p.slots.get line with
  | none => simp [pending, held, hslot]
  | some f =>
    have hc : f.channels = (p.formats.get line).channels :=
      congrArg Format.channels (hp.format_eq hslot)
    simp only [pending, held, hslot, Option.map_some, Option.getD_some, ← hc]
    exact f.length_mul_channels

/-- A line has no samples pending exactly when it holds none. -/
theorem pending_eq_zero_iff (p : Pairing) (line : Line) :
    p.pending line = 0 ↔ p.held line = [] := by
  cases hslot : p.slots.get line with
  | none => simp [pending, held, hslot]
  | some f => simp [pending, held, hslot, f.length_eq_zero_iff]

/-- A line has no samples pending exactly when its slot is free. -/
theorem WellFormed.pending_eq_zero_iff {p : Pairing} (hp : p.WellFormed) (line : Line) :
    p.pending line = 0 ↔ p.slots.get line = none := by
  rw [Pairing.pending_eq_zero_iff, hp.held_eq_nil_iff]

/-- Both lines hold samples exactly when both slots are filled. -/
theorem WellFormed.occupancy_eq_both_iff {p : Pairing} (hp : p.WellFormed) :
    p.occupancy = .both ↔ 0 < p.pending .main ∧ 0 < p.pending .sidechain := by
  rw [Nat.pos_iff_ne_zero, Nat.pos_iff_ne_zero, ne_eq, ne_eq, hp.pending_eq_zero_iff,
    hp.pending_eq_zero_iff]
  -- the two slots, each free or filled
  cases hm : p.slots.main <;> cases hs : p.slots.sidechain <;>
    simp [occupancy, PerLine.get, hm, hs]

/-- What to feed next, by the numbers of samples held. -/
theorem WellFormed.request_eq {p : Pairing} (hp : p.WellFormed) :
    p.request =
      if p.pending .main = 0 then
        some { line := .main
               samples := if p.pending .sidechain = 0 then none else some (p.pending .sidechain) }
      else if p.pending .sidechain = 0 then
        some { line := .sidechain, samples := some (p.pending .main) }
      else none := by
  have hmain := hp.pending_eq_zero_iff .main
  have hsidechain := hp.pending_eq_zero_iff .sidechain
  simp only [PerLine.get] at hmain hsidechain
  simp only [hmain, hsidechain]
  -- four cases of free and filled slots, each with its own request
  cases hm : p.slots.main <;> cases hs : p.slots.sidechain <;>
    simp [request, occupancy, hm, hs, Line.other]

/-- What is held on the lines tells the slots: a pairing has no other state. -/
theorem WellFormed.eq_of_held {p q : Pairing} (hp : p.WellFormed) (hq : q.WellFormed)
    (hformats : p.formats = q.formats) (hheld : ∀ line, p.held line = q.held line) : p = q := by
  -- a slot is told by what is held: free if it is nothing, and else a frame of the line's format
  have hslot : ∀ line, p.slots.get line = q.slots.get line := by
    intro line
    have h := hheld line
    cases hps : p.slots.get line with
    | none =>
      rw [held_of_get_none hps] at h
      exact ((hq.held_eq_nil_iff line).mp h.symm).symm
    | some f =>
      rw [held_of_get hps] at h
      cases hqs : q.slots.get line with
      | none =>
        rw [held_of_get_none hqs] at h
        exact absurd h (hp.samples_ne_nil hps)
      | some g =>
        rw [held_of_get hqs] at h
        have hformat : f.format = g.format := by
          rw [hp.format_eq hps, hq.format_eq hqs, hformats]
        rw [Frame.eq_of_format_of_samples hformat h]
  -- with equal formats and slots the pairings are the same
  have hslots : p.slots = q.slots := PerLine.ext (hslot .main) (hslot .sidechain)
  cases p
  cases q
  subst hformats hslots
  rfl

/-- The format of a line excludes the failure of `append?`, and a span that both lines hold that of
`splitAt?`. -/
theorem WellFormed.assertionsHold {p : Pairing} (hp : p.WellFormed) : p.AssertionsHold where
  append := by
    intro line f g hf hg hnone
    exact (f.append?_eq_none_iff g).mp hnone ((hp.format_eq hf).trans hg.symm)
  split := by
    intro line main sidechain f hm hs hf hnone
    -- the span is not longer than what either line holds
    have hlt := (f.splitAt?_eq_none_iff _).mp hnone
    cases line with
    | main =>
      have hfm : f = main := Option.some.inj (hf.symm.trans hm)
      rw [hfm] at hlt; omega
    | sidechain =>
      have hfs : f = sidechain := Option.some.inj (hf.symm.trans hs)
      rw [hfs] at hlt; omega

/-! ### Start and reset -/

/-- A new pairing has the formats asked for and holds nothing. -/
theorem eq_of_ofFormats {formats : PerLine Format} {p : Pairing} (h : ofFormats formats = .ok p) :
    p = { formats, slots := ⟨none, none⟩ } := by
  obtain ⟨-, -, h⟩ := Result.bind_eq_ok_iff.mp h
  obtain ⟨-, -, h⟩ := Result.bind_eq_ok_iff.mp h
  -- both lines have passed the check, and so has the comparison of their rates
  split at h
  · exact nomatch h
  · exact (Except.ok.inj h).symm

/-- A format that passes the check has channels. -/
theorem channels_pos_of_checkLine {line : Line} {format : Format} {u : PUnit}
    (h : checkLine line format = .ok u) : 0 < format.channels := by
  unfold checkLine at h
  split at h
  · exact nomatch h
  · exact Nat.pos_of_ne_zero ‹_›

/-- Every line of a new pairing has channels. -/
theorem channels_pos_of_ofFormats {formats : PerLine Format} {p : Pairing}
    (h : ofFormats formats = .ok p) (line : Line) : 0 < (formats.get line).channels := by
  -- each line has been checked on its own
  obtain ⟨_, hmain, h⟩ := Result.bind_eq_ok_iff.mp h
  obtain ⟨_, hsidechain, -⟩ := Result.bind_eq_ok_iff.mp h
  cases line with
  | main => exact channels_pos_of_checkLine hmain
  | sidechain => exact channels_pos_of_checkLine hsidechain

/-- A pairing that holds nothing is well-formed. -/
theorem wellFormed_empty (formats : PerLine Format) :
    WellFormed { formats, slots := ⟨none, none⟩ } where
  samples_ne_nil := by
    intro line f h
    cases line <;> exact nomatch h
  format_eq := by
    intro line f h
    cases line <;> exact nomatch h

/-- A pairing that holds nothing holds nothing on either line. -/
theorem held_empty (formats : PerLine Format) (line : Line) :
    held { formats, slots := ⟨none, none⟩ } line = [] := by
  cases line <;> rfl

/-! ### Pushing -/

/-- A slot may be filled with any frame of the format of its line that is not empty. -/
private theorem wellFormed_set {p : Pairing} (hp : p.WellFormed) {line : Line} {f : Frame}
    (hne : f.samples ≠ []) (hf : f.format = p.formats.get line) :
    WellFormed { p with slots := p.slots.set line (some f) } where
  samples_ne_nil := by
    intro l g hg
    rw [PerLine.get_set] at hg
    split at hg
    -- the slot that was filled, and the other one
    · cases hg; exact hne
    · exact hp.samples_ne_nil hg
  format_eq := by
    intro l g hg
    rw [PerLine.get_set] at hg
    split at hg
    · rename_i hl
      cases hg; rw [hl]; exact hf
    · exact hp.format_eq hg

/-- Filling a slot adds to what its line holds. -/
private theorem held_set (p : Pairing) (line l : Line) (f : Frame) (xs : List Sample)
    (h : f.samples = p.held line ++ xs) :
    held { p with slots := p.slots.set line (some f) } l =
      p.held l ++ if l = line then xs else [] := by
  simp only [held, PerLine.get_set]
  split
  · rename_i hl
    rw [hl]; exact h
  · rw [List.append_nil]

/-- A frame of the format of its line is appended to what the line holds. -/
theorem push_of_format_eq {p : Pairing} (hp : p.WellFormed) {line : Line} {f : Frame}
    (hf : f.format = p.formats.get line) :
    ∃ q, p.push line f = .ok q ∧ q.WellFormed ∧ q.formats = p.formats ∧
      ∀ l, q.held l = p.held l ++ if l = line then f.samples else [] := by
  by_cases hempty : f.samples = []
  · -- an empty frame leaves the slots alone
    refine ⟨p, ?_, hp, rfl, fun l => ?_⟩
    · simp [push, hf, hempty]
    · simp [hempty]
  cases hslot : p.slots.get line with
  | none =>
    -- a free slot takes the frame as it is
    refine ⟨_, by simp [push, hf, hempty, hslot], wellFormed_set hp hempty hf, rfl,
      fun l => held_set p line l f f.samples ?_⟩
    rw [held_of_get_none hslot, List.nil_append]
  | some g =>
    -- what is held has the format of the line, so the frame can be appended to it
    obtain ⟨joined, hjoin, hformat, hsamples⟩ :=
      Frame.append?_of_format_eq ((hp.format_eq hslot).trans hf.symm)
    have hne : joined.samples ≠ [] := by
      rw [hsamples]
      exact List.append_ne_nil_of_left_ne_nil (hp.samples_ne_nil hslot) _
    refine ⟨_, by simp [push, hf, hempty, hslot, hjoin],
      wellFormed_set hp hne (hformat.trans (hp.format_eq hslot)), rfl,
      fun l => held_set p line l joined f.samples ?_⟩
    rw [held_of_get hslot, hsamples]

/-- What is appended to a line adds to the number of its samples. -/
theorem pending_of_held_append {p q : Pairing} (hp : p.WellFormed) (hq : q.WellFormed)
    (hformats : q.formats = p.formats) {line : Line} {f : Frame}
    (hf : f.format = p.formats.get line)
    (hheld : ∀ l, q.held l = p.held l ++ if l = line then f.samples else []) (l : Line)
    (hpos : 0 < (p.formats.get l).channels) :
    q.pending l = p.pending l + if l = line then f.length else 0 := by
  -- numbers of samples are compared as numbers of slots
  apply Nat.eq_of_mul_eq_mul_right hpos
  rw [← hformats, hq.pending_mul_channels, hheld, List.length_append, hformats, Nat.add_mul,
    hp.pending_mul_channels]
  split
  next hl =>
    have hchannels : f.channels = (p.formats.get l).channels := by
      rw [hl, ← hf]
      rfl
    rw [← hchannels, f.length_mul_channels]
  next => simp

/-- A push is refused exactly for the format of its frame. -/
theorem push_eq_error_iff {p : Pairing} (hp : p.WellFormed) (line : Line) (f : Frame) :
    (∃ e, p.push line f = .error e) ↔ f.format ≠ p.formats.get line := by
  constructor
  -- a frame of the format would have been taken
  · rintro ⟨e, he⟩ hf
    obtain ⟨q, hq, -⟩ := push_of_format_eq hp hf
    exact nomatch he.symm.trans hq
  · intro hf
    exact ⟨_, if_pos hf⟩

/-! ### Taking a pair -/

/-- A frame that is put in a slot is not empty. -/
theorem slotOf_eq_some {f g : Frame} (h : slotOf f = some g) : g = f ∧ f.samples ≠ [] := by
  unfold slotOf at h
  split at h
  · exact nomatch h
  · rename_i hne
    exact ⟨(Option.some.inj h).symm, by simpa using hne⟩

/-- A frame holds the same samples in a slot, also if it is dropped for being empty. -/
theorem samples_slotOf (f : Frame) : ((slotOf f).map Frame.samples).getD [] = f.samples := by
  unfold slotOf
  split
  · rename_i hempty
    exact ((Frame.isEmpty_eq_true_iff f).mp hempty).symm
  · rfl

/-- With both slots filled the shared span is cut off both, and what is left stays. -/
theorem takePair_of_slots {p : Pairing} {main sidechain : Frame} (hm : p.slots.main = some main)
    (hs : p.slots.sidechain = some sidechain) :
    p.takePair = some
      (⟨main.take (min main.length sidechain.length),
        sidechain.take (min main.length sidechain.length)⟩,
      { p with
        slots :=
          ⟨slotOf (main.drop (min main.length sidechain.length)),
            slotOf (sidechain.drop (min main.length sidechain.length))⟩ }) := by
  -- the span is not longer than either frame, so both can be cut
  have hmain := Frame.splitAt?_of_le (Nat.min_le_left main.length sidechain.length)
  have hsidechain := Frame.splitAt?_of_le (Nat.min_le_right main.length sidechain.length)
  simp [takePair, hm, hs, hmain, hsidechain]

/-- There is a pair exactly when both slots are filled. -/
theorem takePair_eq_none_iff (p : Pairing) : p.takePair = none ↔ p.occupancy ≠ .both := by
  -- one slot that is free is enough to have no pair
  cases hm : p.slots.main with
  | none => cases hs : p.slots.sidechain <;> simp [takePair, occupancy, hm, hs]
  | some main =>
    cases hs : p.slots.sidechain with
    | none => simp [takePair, occupancy, hm, hs]
    | some sidechain => simp [takePair_of_slots hm hs, occupancy, hm, hs]

/-- A pair line by line: the shared span of what the line holds, and the rest left in its slot. -/
private theorem takePair_slots {p q : Pairing} {pair : PerLine Frame}
    (h : p.takePair = some (pair, q)) :
    q.formats = p.formats ∧ ∀ line, ∃ f, p.slots.get line = some f ∧
      min (p.pending .main) (p.pending .sidechain) ≤ f.length ∧
      pair.get line = f.take (min (p.pending .main) (p.pending .sidechain)) ∧
      q.slots.get line = slotOf (f.drop (min (p.pending .main) (p.pending .sidechain))) := by
  -- there is a pair, so both slots are filled
  cases hm : p.slots.main with
  | none => simp [takePair, hm] at h
  | some main =>
    cases hs : p.slots.sidechain with
    | none => simp [takePair, hm, hs] at h
    | some sidechain =>
      obtain ⟨rfl, rfl⟩ := Prod.mk.inj (Option.some.inj ((takePair_of_slots hm hs).symm.trans h))
      -- the numbers pending are the lengths of the two frames
      have hpm : p.pending .main = main.length := by simp [pending, PerLine.get, hm]
      have hps : p.pending .sidechain = sidechain.length := by simp [pending, PerLine.get, hs]
      rw [hpm, hps]
      refine ⟨rfl, fun line => ?_⟩
      cases line with
      | main => exact ⟨main, hm, Nat.min_le_left .., rfl, rfl⟩
      | sidechain => exact ⟨sidechain, hs, Nat.min_le_right .., rfl, rfl⟩

/-- What a pair takes off both lines: the same number of samples, and at least one. -/
theorem takePair_eq_some {p q : Pairing} (hp : p.WellFormed) {pair : PerLine Frame}
    (h : p.takePair = some (pair, q)) :
    q.WellFormed ∧ q.formats = p.formats ∧
      0 < min (p.pending .main) (p.pending .sidechain) ∧
      ∀ line, (pair.get line).format = p.formats.get line ∧
        (pair.get line).length = min (p.pending .main) (p.pending .sidechain) ∧
        (pair.get line).samples ++ q.held line = p.held line := by
  -- both lines hold samples, or there would be no pair
  have hboth : p.occupancy = .both := by
    by_cases hboth : p.occupancy = .both
    · exact hboth
    · exact nomatch h.symm.trans ((p.takePair_eq_none_iff).mpr hboth)
  have hpos := hp.occupancy_eq_both_iff.mp hboth
  -- what is left on a line is put back only if it is not empty
  obtain ⟨hformats, hlines⟩ := takePair_slots h
  refine ⟨⟨?_, ?_⟩, hformats, by omega, ?_⟩
  · intro line g hg
    obtain ⟨f, -, -, -, hslot⟩ := hlines line
    obtain ⟨rfl, hne⟩ := slotOf_eq_some (hslot.symm.trans hg)
    exact hne
  · intro line g hg
    obtain ⟨f, hf, -, -, hslot⟩ := hlines line
    obtain ⟨rfl, -⟩ := slotOf_eq_some (hslot.symm.trans hg)
    rw [hformats, Frame.format_drop]
    exact hp.format_eq hf
  -- on each line the front goes out and the rest stays
  · intro line
    obtain ⟨f, hf, hle, hpair, hslot⟩ := hlines line
    refine ⟨?_, ?_, ?_⟩
    · rw [hpair, Frame.format_take]
      exact hp.format_eq hf
    · rw [hpair, Frame.length_take, Nat.min_eq_left hle]
    · rw [hpair, held, hslot, samples_slotOf, Frame.samples_take_append_drop, held_of_get hf]

end Pairing

end DynamicRange
