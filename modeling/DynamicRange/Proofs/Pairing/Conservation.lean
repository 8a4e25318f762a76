import DynamicRange.Proofs.Pairing.Basic

/-!
# Nothing is lost between the lines

A session is a pairing with a record of the frames that each line has accepted and of those it has
handed out since the last reset. However pushes, pairs and resets follow each other, what a line has
handed out followed by what it still holds is what it has accepted.

## Key results

- `Session.invariant_step`: one operation keeps the record
- `Session.conservation`: what holds after any run
-/

namespace DynamicRange.Pairing

/-- One operation on a pairing. -/
inductive Op where
  | push (line : Line) (f : Frame)
  | takePair
  | reset

/-- A pairing with the frames accepted and handed out on each line since the last reset. -/
structure Session where
  pairing : Pairing
  accepted : PerLine (List Frame)
  handed : PerLine (List Frame)

namespace Session

/-- The session of a pairing with nothing on record. -/
def start (p : Pairing) : Session := { pairing := p, accepted := ⟨[], []⟩, handed := ⟨[], []⟩ }

/-- The session after an operation. A push that is refused and a pair that is not there leave it as
it is. -/
def step (s : Session) : Op → Session
  | .push line f =>
    match s.pairing.push line f with
    | .error _ => s
    | .ok q => { s with
        pairing := q
        accepted := s.accepted.set line (s.accepted.get line ++ [f]) }
  | .takePair =>
    match s.pairing.takePair with
    | none => s
    | some (pair, q) => { s with
        pairing := q
        handed := ⟨s.handed.main ++ [pair.main], s.handed.sidechain ++ [pair.sidechain]⟩ }
  | .reset => start s.pairing.reset

/-- The session after operations one after another. -/
def run (s : Session) (ops : List Op) : Session := ops.foldl step s

/-- What every operation keeps. -/
structure Invariant (formats : PerLine Format) (s : Session) : Prop where
  formats_eq : s.pairing.formats = formats
  wellFormed : s.pairing.WellFormed
  /-- On each line, what is handed out and what is held make up what is accepted. -/
  conserved : ∀ line, Frame.concat (s.handed.get line) ++ s.pairing.held line =
    Frame.concat (s.accepted.get line)

/-- A session starts in order with a pairing that holds nothing. -/
theorem invariant_start (formats : PerLine Format) :
    Invariant formats (start { formats, slots := ⟨none, none⟩ }) where
  formats_eq := rfl
  wellFormed := wellFormed_empty formats
  conserved := by
    intro line
    cases line <;> rfl

/-- A push adds the same samples to what is accepted and to what is held. -/
private theorem invariant_push {formats : PerLine Format} {s : Session} (hs : s.Invariant formats)
    (line : Line) (f : Frame) : (s.step (.push line f)).Invariant formats := by
  by_cases hf : f.format = s.pairing.formats.get line
  · obtain ⟨q, hq, hwf, hformats, hheld⟩ := push_of_format_eq hs.wellFormed hf
    simp only [step, hq]
    refine ⟨hformats.trans hs.formats_eq, hwf, fun l => ?_⟩
    -- both sides grow by the frame, at the end, on its line only
    rw [hheld, ← List.append_assoc, hs.conserved l, PerLine.get_set]
    split
    · rename_i hl
      simp [hl]
    · rw [List.append_nil]
  -- a push that is refused changes nothing
  · obtain ⟨e, he⟩ := (push_eq_error_iff hs.wellFormed line f).mpr hf
    simp only [step, he]
    exact hs

/-- A pair moves samples from what is held to what is handed out. -/
private theorem invariant_takePair {formats : PerLine Format} {s : Session}
    (hs : s.Invariant formats) : (s.step .takePair).Invariant formats := by
  cases hpair : s.pairing.takePair with
  | none => simpa only [step, hpair] using hs
  | some r =>
    obtain ⟨pair, q⟩ := r
    obtain ⟨hwf, hformats, -, hlines⟩ := takePair_eq_some hs.wellFormed hpair
    simp only [step, hpair]
    refine ⟨hformats.trans hs.formats_eq, hwf, fun line => ?_⟩
    have hhanded : (PerLine.mk (s.handed.main ++ [pair.main])
        (s.handed.sidechain ++ [pair.sidechain])).get line =
        s.handed.get line ++ [pair.get line] := by
      cases line <;> rfl
    -- the pair goes from the front of what is held to the end of what is handed out
    rw [← hs.conserved line, ← (hlines line).2.2, hhanded]
    simp

/-- Every operation keeps the invariant. -/
theorem invariant_step {formats : PerLine Format} {s : Session} (hs : s.Invariant formats)
    (op : Op) : (s.step op).Invariant formats := by
  cases op with
  | push line f => exact invariant_push hs line f
  | takePair => exact invariant_takePair hs
  | reset =>
    -- a reset starts a new session with the same formats
    have hreset : s.step .reset = start { formats, slots := ⟨none, none⟩ } := by
      rw [← hs.formats_eq]; rfl
    rw [hreset]
    exact invariant_start formats

/-- Every run keeps the invariant. -/
theorem invariant_run {formats : PerLine Format} {s : Session} (hs : s.Invariant formats)
    (ops : List Op) : (s.run ops).Invariant formats := by
  induction ops generalizing s with
  | nil => exact hs
  | cons op ops ih => exact ih (invariant_step hs op)

/-- After any run on a new pairing: no slot holds an empty frame or one of another format, so that
no cut or join of what is held can fail; a push is refused exactly for the format of its frame; on
each line the frames handed out and the samples still held make up the frames accepted; and there is
a pair exactly when both lines hold samples, of one length for both lines, which is the smaller
number held and not zero. -/
theorem conservation (formats : PerLine Format) (p : Pairing) (hp : ofFormats formats = .ok p)
    (ops : List Op) :
    let s := (start p).run ops
    let n := min (s.pairing.pending .main) (s.pairing.pending .sidechain)
    (∀ line f, s.pairing.slots.get line = some f →
        f.isEmpty = false ∧ f.format = formats.get line) ∧
      s.pairing.AssertionsHold ∧
      (∀ line f, (∃ q, s.pairing.push line f = .ok q) ↔ f.format = formats.get line) ∧
      (∀ line, Frame.concat (s.handed.get line) ++ s.pairing.held line =
        Frame.concat (s.accepted.get line)) ∧
      (s.pairing.takePair = none ↔ s.pairing.occupancy ≠ .both) ∧
      (s.pairing.occupancy ≠ .both → s.step .takePair = s) ∧
      (∀ pair q, s.pairing.takePair = some (pair, q) →
        pair.main.length = n ∧ pair.sidechain.length = n ∧ 1 ≤ n) := by
  obtain rfl := eq_of_ofFormats hp
  intro s n
  -- the invariant holds after the run, and each part is read off it
  have hs : s.Invariant formats := invariant_run (invariant_start formats) ops
  refine ⟨?_, hs.wellFormed.assertionsHold, ?_, hs.conserved, s.pairing.takePair_eq_none_iff,
    ?_, ?_⟩
  -- a filled slot is well-formed
  · intro line f hf
    refine ⟨(f.isEmpty_eq_false_iff).mpr (hs.wellFormed.samples_ne_nil hf), ?_⟩
    rw [← hs.formats_eq]
    exact hs.wellFormed.format_eq hf
  -- a push is refused for its format and for nothing else
  · intro line f
    rw [← hs.formats_eq]
    constructor
    · rintro ⟨q, hq⟩
      by_cases hf : f.format = s.pairing.formats.get line
      · exact hf
      · obtain ⟨e, he⟩ := (push_eq_error_iff hs.wellFormed line f).mpr hf
        exact nomatch hq.symm.trans he
    · intro hf
      obtain ⟨q, hq, -⟩ := push_of_format_eq hs.wellFormed hf
      exact ⟨q, hq⟩
  -- without a pair the step leaves the session as it is
  · intro hboth
    simp only [step, (s.pairing.takePair_eq_none_iff).mpr hboth]
  -- the lengths of a pair are those of the shared span
  · intro pair q hpair
    obtain ⟨-, -, hpos, hlines⟩ := takePair_eq_some hs.wellFormed hpair
    exact ⟨(hlines .main).2.1, (hlines .sidechain).2.1, hpos⟩

/-- A stereo line that is ahead of a mono one, and a mono frame that the stereo line refuses. -/
theorem conservation_stereo_mono :
    ∃ p s, ofFormats ⟨⟨2, 48000⟩, ⟨1, 48000⟩⟩ = .ok p ∧
      s = (start p).run
        [.push .main ⟨2, 48000, [⟨1⟩, ⟨2⟩, ⟨3⟩, ⟨4⟩], by decide, by decide⟩,
          .push .sidechain ⟨1, 48000, [⟨5⟩], by decide, by decide⟩, .takePair,
          .push .main ⟨1, 48000, [⟨6⟩], by decide, by decide⟩] ∧
      Frame.concat (s.handed.get .main) ++ s.pairing.held .main = [⟨1⟩, ⟨2⟩, ⟨3⟩, ⟨4⟩] :=
  ⟨_, _, rfl, rfl, (conservation ⟨⟨2, 48000⟩, ⟨1, 48000⟩⟩ _ rfl _).2.2.2.1 .main⟩

end Session

end DynamicRange.Pairing
