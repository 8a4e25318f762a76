import DynamicRange.Proofs.Coherence

/-!
# What a compressor with a sidechain waits for

A push drains the span that both lines hold, so between two operations at most one line holds
samples, whatever was pushed, refused, reset or configured before. So there is always a request: for
any number of samples of the main line when nothing is held, and otherwise for as many samples of
the free line as the other one holds. A frame that answers it brings out the span of both, and what
is longer keeps the rest.

## Key results

- `ready_perform`, `ready_performAll`: operations leave at most one line filled
- `Pairing.WellFormed.request_of_free`: the request of such a state
- `push_requested`: a frame on the line asked for
- `request_of_reachable`: all of it, after any operations
-/

namespace DynamicRange

/-! ### The request -/

namespace Pairing

/-- Any number of samples is asked for exactly when nothing is held. -/
theorem request_eq_any_iff (p : Pairing) :
    p.request = some { line := .main, samples := none } ↔ ∀ line, p.slots.get line = none := by
  constructor
  -- of the four cases of the two slots only one asks for any number
  · intro h line
    cases hm : p.slots.main <;> cases hs : p.slots.sidechain <;>
      simp [request, occupancy, hm, hs] at h
    cases line with
    | main => exact hm
    | sidechain => exact hs
  · intro h
    have hm : p.slots.main = none := h .main
    have hs : p.slots.sidechain = none := h .sidechain
    simp [request, occupancy, hm, hs]

/-- What one line holds is asked of the other one, if that is free. -/
theorem request_of_held {p : Pairing} {held : Line} (hheld : p.slots.get held ≠ none)
    (hfree : p.slots.get held.other = none) :
    p.request = some { line := held.other, samples := some (p.pending held) } := by
  obtain ⟨f, hf⟩ := Option.ne_none_iff_exists'.mp hheld
  cases held <;> simp_all [request, occupancy, PerLine.get, Line.other]

/-- With at most one line filled a free line is asked for what the other one holds. -/
theorem WellFormed.request_of_free {p : Pairing} (hp : p.WellFormed)
    (hfree : min (p.pending .main) (p.pending .sidechain) = 0) :
    ∃ r, p.request = some r ∧ p.pending r.line = 0 ∧
      r.samples.getD 0 = p.pending r.line.other ∧
      (r.samples = none ↔ p.pending r.line.other = 0) := by
  rw [hp.request_eq]
  -- the main line is free, or it is held and the sidechain is free
  by_cases hmain : p.pending .main = 0
  · refine ⟨_, if_pos hmain, hmain, ?_⟩
    by_cases hsidechain : p.pending .sidechain = 0 <;> simp [Line.other, hsidechain]
  · have hsidechain : p.pending .sidechain = 0 := by omega
    refine ⟨_, (if_neg hmain).trans (if_pos hsidechain), hsidechain, rfl, ?_⟩
    simp [Line.other, hmain]

end Pairing

namespace SidechainCompressor

variable {formats : PerLine Format} {c : SidechainCompressor}

/-! ### At most one line is filled -/

/-- One operation. A push is drained; no other operation fills a line. -/
theorem ready_perform (h : c.Coherent formats) (hpos : ∀ line, 0 < (formats.get line).channels)
    (hready : c.ready = 0) (op : Op) : (c.perform op).ready = 0 := by
  -- settings and controls do not touch the lines
  cases op with
  | setSettings s =>
    rw [perform_setSettings]
    exact hready
  | setParameter i x => exact hready
  | push line f =>
    show (c.feed line f).2.ready = 0
    by_cases hf : f.format = c.pairing.formats.get line
    · obtain ⟨q, block, c', hpush, hd, hq, hformats, -⟩ := push_of_format_eq h.wellFormed hf
      have hfeed : (c.feed line f).2 = c' := by simp only [SidechainCompressor.feed, hpush]
      rw [hfeed]
      refine hd.ready_eq_zero hq fun l => ?_
      rw [hformats, h.formats_eq]
      exact hpos l
    · -- refused, so nothing has changed
      obtain ⟨err, hpush⟩ := push_of_format_ne h.wellFormed hf
      have hfeed : (c.feed line f).2 = c := by simp only [SidechainCompressor.feed, hpush]
      rw [hfeed]
      exact hready
  | reset => rfl

/-- By induction on the operations, which keep the compressor coherent. -/
theorem ready_performAll (h : c.Coherent formats)
    (hpos : ∀ line, 0 < (formats.get line).channels) (hready : c.ready = 0) (ops : List Op) :
    (c.performAll ops).ready = 0 := by
  induction ops generalizing c with
  | nil => exact hready
  | cons op ops ih => exact ih (h.perform op) (ready_perform h hpos hready op)

/-! ### A frame on the line asked for -/

/-- A frame on a free line brings out what it shares with the other line, and the longer one keeps
the rest. -/
theorem push_requested (h : c.Coherent formats) (hpos : ∀ line, 0 < (formats.get line).channels)
    {line : Line} {f : Frame} (hf : f.format = formats.get line)
    (hfree : c.pairing.pending line = 0) :
    ∃ block c', c.push line f = .ok (block, c') ∧ c'.pairing.WellFormed ∧
      block.map Frame.length =
        (if min f.length (c.pairing.pending line.other) = 0 then none
          else some (min f.length (c.pairing.pending line.other))) ∧
      c'.pairing.pending line = f.length - c.pairing.pending line.other ∧
      c'.pairing.pending line.other = c.pairing.pending line.other - f.length := by
  have hf' : f.format = c.pairing.formats.get line := hf.trans (by rw [h.formats_eq])
  have hpos' (l : Line) : 0 < (c.pairing.formats.get l).channels := by
    rw [h.formats_eq]
    exact hpos l
  obtain ⟨q, block, c', hpush, hd, hq, hformats, hheld⟩ := push_of_format_eq h.wellFormed hf'
  -- the frame is all that its line holds, and the other line is as it was
  have hpending (l : Line) : q.pending l = c.pairing.pending l + if l = line then f.length else 0 :=
    Pairing.pending_of_held_append h.wellFormed hq hformats hf' hheld l (hpos' l)
  have hline : q.pending line = f.length := by rw [hpending, hfree, if_pos rfl, Nat.zero_add]
  have hother : q.pending line.other = c.pairing.pending line.other := by
    rw [hpending, if_neg (by cases line <;> decide), Nat.add_zero]
  have hspan : ready { c with pairing := q } =
      min f.length (c.pairing.pending line.other) := by
    rw [← hline, ← hother]
    cases line with
    | main => rfl
    | sidechain => exact Nat.min_comm ..
  have hposq (l : Line) : 0 < (q.formats.get l).channels := by
    rw [hformats]
    exact hpos' l
  have hleft : c'.pairing.pending line = q.pending line - _ := hd.pending_eq hq (hposq line)
  have hleft' : c'.pairing.pending line.other = q.pending line.other - _ :=
    hd.pending_eq hq (hposq line.other)
  refine ⟨block, c', hpush, hd.wellFormed, ?_, ?_, ?_⟩
  -- the block is there just when the span is not empty, and then it is the span
  · have hsome := hd.isSome_eq
    rw [hspan] at hsome
    split
    next hzero =>
      rw [hzero] at hsome
      have hnone : block = none := Option.not_isSome_iff_eq_none.mp (by rw [hsome]; decide)
      rw [hnone, Option.map_none]
    next hne =>
      rw [decide_eq_true (Nat.pos_of_ne_zero hne)] at hsome
      obtain ⟨g, rfl⟩ := Option.isSome_iff_exists.mp hsome
      rw [Option.map_some, (hd.block_eq g rfl).2, hspan]
  -- what is left on each line is what it held without the span
  · rw [hleft, hline, hspan]
    omega
  · rw [hleft', hother, hspan]
    omega

/-- After any operations at most one line is filled, and there is a request. It asks the main line
for any number of samples exactly when nothing is held; what a line holds it asks of the other one,
which is free. A frame of one sample or more that answers the request comes out as far as both lines
go, and the longer line keeps what is left; with as many samples as were asked for nothing is
left. -/
theorem request_of_reachable (s : Settings) (formats : PerLine Format) (c : SidechainCompressor)
    (hc : ofSettings s formats = .ok c) (ops : List Op) :
    let p := (c.performAll ops).pairing
    (p.slots.main = none ∨ p.slots.sidechain = none) ∧
      (p.request = some { line := .main, samples := none } ↔
        ∀ line, p.slots.get line = none) ∧
      (∀ held, p.slots.get held ≠ none → 1 ≤ p.pending held ∧ p.slots.get held.other = none ∧
        p.request = some { line := held.other, samples := some (p.pending held) }) ∧
      ∃ r, p.request = some r ∧ ∀ f : Frame, f.format = formats.get r.line → 1 ≤ f.length →
        let asked := r.samples.getD 0
        ∃ block c', (c.performAll ops).push r.line f = .ok (block, c') ∧
          block.map Frame.length =
            (if r.samples = none then none else some (min f.length asked)) ∧
          c'.pairing.pending r.line = f.length - asked ∧
          c'.pairing.pending r.line.other = asked - f.length ∧
          (f.length = asked → ∀ line, c'.pairing.slots.get line = none) := by
  -- a new compressor holds nothing, and every operation keeps at most one line filled
  have hcoherent := coherent_of_ofSettings hc
  obtain ⟨hpos, hempty⟩ : (∀ line, 0 < (formats.get line).channels) ∧ c.ready = 0 := by
    obtain ⟨e, -, hpos, rfl⟩ := eq_of_ofSettings hc
    exact ⟨hpos, rfl⟩
  have hready := ready_performAll hcoherent hpos hempty ops
  have h := hcoherent.performAll ops
  generalize c.performAll ops = d at h hready
  intro p
  -- in a well-formed pairing a line has samples pending just when its slot is filled
  have hslot (line : Line) : p.pending line = 0 ↔ p.slots.get line = none :=
    h.wellFormed.pending_eq_zero_iff line
  have hspan : min (p.pending .main) (p.pending .sidechain) = 0 := hready
  -- one line is free, and it is asked
  obtain ⟨r, hrequest, hfree, hasked, hnone⟩ := h.wellFormed.request_of_free hspan
  refine ⟨?_, p.request_eq_any_iff, fun held hheld => ?_, r, hrequest, fun f hf hlength => ?_⟩
  -- one of the two numbers pending is zero
  · obtain hmain | hsidechain : p.pending .main = 0 ∨ p.pending .sidechain = 0 := by omega
    · exact .inl ((hslot .main).mp hmain)
    · exact .inr ((hslot .sidechain).mp hsidechain)
  · -- the line held is not the free one
    have hne : p.pending held ≠ 0 := fun hzero => hheld ((hslot held).mp hzero)
    have hother : p.pending held.other = 0 := by
      cases held <;> simp only [Line.other] <;> omega
    exact ⟨Nat.pos_of_ne_zero hne, (hslot _).mp hother,
      Pairing.request_of_held hheld ((hslot _).mp hother)⟩
  -- an answer of one sample or more, on the line that is asked
  · obtain ⟨block, c', hpush, hwf, hblock, hleft, hleft'⟩ := push_requested h hpos hf hfree
    rw [← hasked] at hblock hleft hleft'
    refine ⟨block, c', hpush, hblock.trans ?_, hleft, hleft', fun heq line => ?_⟩
    -- a block comes out unless any number was asked for
    · by_cases hsome : r.samples = none
      · rw [if_pos hsome, if_pos (by rw [hsome]; exact Nat.min_zero _)]
      · have hne : r.samples.getD 0 ≠ 0 := fun hzero => hsome (hnone.mpr (hasked.symm.trans hzero))
        rw [if_neg hsome, if_neg (by omega)]
    -- as many as were asked for: nothing is left on either line
    · have hzero : c'.pairing.pending r.line = 0 := by omega
      have hzero' : c'.pairing.pending r.line.other = 0 := by omega
      rw [← hwf.pending_eq_zero_iff]
      generalize r.line = free at hzero hzero'
      cases line <;> cases free <;> assumption

/-- Two samples pushed on the main line after a refused frame: two are asked of the sidechain, and
one that arrives leaves one. -/
theorem request_of_reachable_stereo_mono :
    ∃ c, ofSettings {} ⟨⟨2, 48000⟩, ⟨1, 48000⟩⟩ = .ok c ∧
      ∃ block c', (c.performAll [.push .main ⟨1, 48000, [⟨1⟩], by decide, by decide⟩,
          .push .main ⟨2, 48000, [⟨1⟩, ⟨2⟩, ⟨3⟩, ⟨4⟩], by decide, by decide⟩]).push .sidechain
            ⟨1, 48000, [⟨5⟩], by decide, by decide⟩ = .ok (block, c') ∧
        block.map Frame.length = some 1 ∧ c'.pairing.pending .main = 1 := by
  refine ⟨_, rfl, ?_⟩
  obtain ⟨-, -, -, r, hrequest, hpush⟩ := request_of_reachable {} ⟨⟨2, 48000⟩, ⟨1, 48000⟩⟩ _ rfl
    [.push .main ⟨1, 48000, [⟨1⟩], by decide, by decide⟩,
      .push .main ⟨2, 48000, [⟨1⟩, ⟨2⟩, ⟨3⟩, ⟨4⟩], by decide, by decide⟩]
  -- two samples are held on the main line, so two are asked of the sidechain
  obtain rfl : r = { line := .sidechain, samples := some 2 } :=
    Option.some.inj (hrequest.symm.trans rfl)
  obtain ⟨block, c', h, hblock, -, hmain, -⟩ :=
    hpush ⟨1, 48000, [⟨5⟩], by decide, by decide⟩ rfl (by decide)
  exact ⟨block, c', h, hblock, hmain⟩

end SidechainCompressor

end DynamicRange
