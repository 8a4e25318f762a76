import DynamicRange.Buffer
import DynamicRange.Proofs.Frame
import DynamicRange.Proofs.InPlace

/-!
# Buffers in place against frames

The assertions of the calls on buffers are those of the operations on frames, and stand before
everything that is written. So a buffer that starts as that of a frame stays one, and a call that
stops leaves it as it was.

## Key results

- `Buffer.make_eq`, `Buffer.splitOff_eq` and their like: each call against the operation
- `Shelf.Framed.perform`, `Shelf.Framed.run`: one step on buffers under names, and all of them
- `Shelf.channels_of_run`, `Shelf.Framed.leaves_of_stops`: what follows from that
- `Shelf.frame_algebra`: the laws of cutting and joining, and when calls stop
-/

namespace DynamicRange

namespace Call

variable {σ α : Type}

/-- What a call comes to that gives an answer and leaves a state, or fails an assertion and leaves
`s`. -/
def granted (s : σ) : Option (α × σ) → EStateM.Result Abort σ α
  | some (a, t) => .ok a t
  | none => .error .assertion s

end Call

namespace Buffer

variable {σ : Type} {f g : Frame}

/-- The buffer of a frame has its samples. -/
@[simp] theorem samples_ofFrame (f : Frame) : (ofFrame f).samples = f.samples := rfl

/-- The buffer of a frame has its channels. -/
@[simp] theorem channels_ofFrame (f : Frame) : (ofFrame f).channels = f.channels := rfl

/-- The buffer of a frame has its format. -/
@[simp] theorem format_ofFrame (f : Frame) : (ofFrame f).format = f.format := rfl

/-- A buffer is made exactly where a frame is, and the state stays. -/
theorem make_eq (samples : List Sample) (channels rate : Nat) (s : σ) :
    make samples channels rate s =
      Call.granted s ((Frame.ofInterleaved? samples channels rate).map fun f => (ofFrame f, s)) := by
  unfold make Frame.ofInterleaved?
  rw [Call.require_bind, Call.require_bind]
  -- the two assertions in their order; both together are the condition of a frame
  by_cases hpos : 0 < channels
  · by_cases hdvd : channels ∣ samples.length
    · rw [if_pos hpos, if_pos (Nat.mod_eq_zero_of_dvd hdvd), dif_pos ⟨hpos, hdvd⟩]
      rfl
    · rw [if_pos hpos, if_neg (mt Nat.dvd_of_mod_eq_zero hdvd), dif_neg (fun h => hdvd h.2)]
      rfl
  · rw [if_neg hpos, dif_neg (fun h => hpos h.1)]
    rfl

/-- A silent buffer is made exactly where a silent frame is, and the state stays. -/
theorem silence_eq (format : Format) (length : Nat) (s : σ) :
    silence format length s =
      Call.granted s ((Frame.silence? format length).map fun f => (ofFrame f, s)) := by
  unfold silence Frame.silence?
  rw [Call.require_bind]
  split
  · exact make_eq ..
  · rfl

/-- The length of the buffer of a frame is that of the frame, for there is a channel. -/
theorem length_eq (f : Frame) : length (ofFrame f) = .ok f.length (ofFrame f) := by
  unfold length
  rw [Call.get_bind, Call.require_bind, channels_ofFrame,
    if_pos (Nat.pos_iff_ne_zero.mp f.channels_pos)]
  rfl

/-- Splitting a buffer in place gives what splitting its frame gives. -/
theorem splitOff_eq (f : Frame) (n : Nat) :
    splitOff n (ofFrame f) =
      Call.granted (ofFrame f)
        ((f.splitAt? n).map fun parts => (ofFrame parts.2, ofFrame parts.1)) := by
  unfold splitOff
  rw [Call.bind_of_ok (length_eq f), Call.require_bind]
  by_cases hn : n ≤ f.length
  · -- the cut lies between whole samples of the buffer
    have hslot : n * f.channels ≤ f.samples.length := Frame.mul_channels_le hn
    rw [if_pos hn, Frame.splitAt?_of_le hn, Call.get_bind, Call.require_bind, channels_ofFrame,
      samples_ofFrame, if_pos hslot]
    rfl
  · rw [if_neg hn, (f.splitAt?_eq_none_iff n).mpr (by omega)]
    rfl

/-- Appending to a buffer in place gives what appending to its frame gives. -/
theorem append_eq (f g : Frame) :
    append (ofFrame g) (ofFrame f) =
      Call.granted (ofFrame f) ((f.append? g).map fun joined => ((), ofFrame joined)) := by
  unfold append
  rw [Call.get_bind, Call.require_bind, format_ofFrame, format_ofFrame]
  -- the formats are compared before anything is written
  by_cases hformat : f.format = g.format
  · rw [if_pos hformat, Frame.append?, dif_pos hformat]
    rfl
  · rw [if_neg hformat, (f.append?_eq_none_iff g).mpr hformat]
    rfl

/-- Writing a slot in place gives what writing it in the frame gives. -/
theorem setSlot_eq (f : Frame) (slot : Nat) (x : Sample) :
    setSlot slot x (ofFrame f) =
      Call.granted (ofFrame f) ((f.setSlot? slot x).map fun g => ((), ofFrame g)) := by
  unfold setSlot Frame.setSlot?
  rw [Call.get_bind, Call.require_bind, samples_ofFrame]
  split
  · rfl
  · rfl

/-- A position that does not fit a word lies past the end of every buffer that can be addressed. -/
theorem sample_eq (hf : f.samples.length < 1 <<< 64) (i : Nat) :
    sample i (ofFrame f) =
      Call.granted (ofFrame f) ((f.sample? i).map fun slots => (slots, ofFrame f)) := by
  -- counted in slots, the sample of a position that exists ends within the buffer
  have hstop : i < f.length ↔ i * f.channels + f.channels ≤ f.samples.length := by
    rw [← Nat.succ_mul, ← f.length_mul_channels, Nat.mul_le_mul_right_iff f.channels_pos]
    exact Nat.succ_le_iff.symm
  unfold sample Frame.sample?
  rw [Call.get_bind, Call.require_bind, Call.require_bind, Call.slice_eq, channels_ofFrame,
    samples_ofFrame]
  by_cases hi : i < f.length
  · have hle := hstop.mp hi
    rw [if_pos hi, if_pos (by omega), if_pos (by omega), if_pos (by omega), Nat.add_sub_cancel_left]
    rfl
  · -- if both positions fit a word, the second one is past the end
    have hpast := mt hstop.mpr hi
    have hslice : ¬(i * f.channels ≤ i * f.channels + f.channels ∧
        i * f.channels + f.channels ≤ f.samples.length) := fun h => hpast h.2
    rw [if_neg hi, if_neg hslice, ite_self, ite_self]
    rfl

/-- A call that has the result of an operation on frames comes to its end with the buffer of a
frame, or leaves the buffer. -/
theorem cases_of_granted {α β : Type} {call : Call Buffer α} {result : Option β} {answer : β → α}
    {left : β → Frame} {P : α → Prop}
    (hcall : call (ofFrame f) =
      Call.granted (ofFrame f) (result.map fun b => (answer b, ofFrame (left b))))
    (hanswer : ∀ b, P (answer b)) :
    call (ofFrame f) = .error .assertion (ofFrame f) ∨
      ∃ a g, P a ∧ call (ofFrame f) = .ok a (ofFrame g) := by
  rw [hcall]
  cases result with
  | none => exact .inl rfl
  | some b => exact .inr ⟨answer b, left b, hanswer b, rfl⟩

/-- A sample is looked up, and the buffer stays, whatever its size is. -/
theorem sample_cases (b : Buffer) (i : Nat) :
    sample i b = .error .assertion b ∨ ∃ slots, sample i b = .ok slots b := by
  unfold sample
  rw [Call.get_bind, Call.require_bind, Call.require_bind, Call.slice_eq]
  split
  · split
    · split
      · exact .inr ⟨_, rfl⟩
      · exact .inl rfl
    · exact .inl rfl
  · exact .inl rfl

end Buffer

namespace Shelf

variable {α : Type} {s : Shelf} {name : String}

/-- Every buffer on the shelf is that of a frame. -/
def Framed (s : Shelf) : Prop := ∀ name b, s name = some b → ∃ f, b = Buffer.ofFrame f

/-- An empty shelf has no buffers at all. -/
theorem framed_empty : Framed empty := nofun

/-- The buffer of a frame that is put on the shelf keeps it framed. -/
theorem Framed.put (hs : Framed s) (name : String) (f : Frame) :
    Framed (s.put name (some (Buffer.ofFrame f))) := by
  intro name' b h
  unfold Shelf.put at h
  -- under the name itself there is the new buffer, under any other the old one
  split at h
  · exact ⟨f, (Option.some.inj h).symm⟩
  · exact hs name' b h

/-- Taking a buffer away keeps the shelf framed. -/
theorem Framed.put_none (hs : Framed s) (name : String) : Framed (s.put name none) := by
  intro name' b h
  unfold Shelf.put at h
  split at h
  · exact nomatch h
  · exact hs name' b h

/-- Putting a buffer where it is already changes nothing. -/
theorem put_self {b : Buffer} (h : s name = some b) : s.put name (some b) = s := by
  funext name'
  unfold put
  split
  · rename_i heq
    rw [heq, h]
  · rfl

/-- A name stands for the buffer of a frame, or for none. -/
theorem Framed.held_cases (hs : Framed s) (name : String) :
    held name s = .error .assertion s ∨
      ∃ f, s name = some (Buffer.ofFrame f) ∧ held name s = .ok (Buffer.ofFrame f) s := by
  unfold held
  rw [Call.get_bind]
  cases h : s name with
  | none => exact .inl rfl
  | some b =>
    obtain ⟨f, rfl⟩ := hs name b h
    exact .inr ⟨f, rfl, rfl⟩

/-- A call on the buffer of a name. If it comes to its end with the buffer of a frame, or stops and
leaves the buffer, it does the same to the shelf. -/
theorem Framed.on_cases (hs : Framed s) (name : String) {call : Call Buffer α} {P : α → Prop}
    (hcall : ∀ f, call (Buffer.ofFrame f) = .error .assertion (Buffer.ofFrame f) ∨
      ∃ a g, P a ∧ call (Buffer.ofFrame f) = .ok a (Buffer.ofFrame g)) :
    on name call s = .error .assertion s ∨
      ∃ a t, P a ∧ Framed t ∧ on name call s = .ok a t := by
  unfold on
  rcases hs.held_cases name with hnone | ⟨f, hname, hheld⟩
  · exact .inl (Call.bind_of_error hnone)
  rw [Call.bind_of_ok hheld]
  rcases hcall f with hstop | ⟨a, g, ha, hend⟩
  · -- the buffer is put back as it was
    rw [hstop]
    refine .inl ?_
    show EStateM.Result.error Abort.assertion (s.put name (some (Buffer.ofFrame f))) = _
    rw [put_self hname]
  · rw [hend]
    exact .inr ⟨a, _, ha, hs.put name g, rfl⟩

/-- A step comes to its end with buffers of frames, or stops and leaves the shelf. -/
def Settles (s : Shelf) (result : EStateM.Result Abort Shelf α) : Prop :=
  result = .error .assertion s ∨ ∃ a t, Framed t ∧ result = .ok a t

/-- A buffer that is made is put on the shelf. -/
theorem Framed.made (hs : Framed s) {call : Call Shelf Buffer} {made : Option Frame}
    (hcall : call s = Call.granted s (made.map fun f => (Buffer.ofFrame f, s))) (name : String) :
    Settles s ((do
      let b ← call
      modify fun s : Shelf => s.put name (some b)
      return ([] : List Sample)) s) := by
  cases made with
  -- a buffer that is not made is not put anywhere
  | none => exact .inl (Call.bind_of_error hcall)
  | some f => exact .inr ⟨[], _, hs.put name f, Call.bind_of_ok hcall⟩

/-- One step, by cases on what the host does. -/
theorem Framed.perform (hs : Framed s) (step : Step) : Settles s (perform step s) := by
  cases step with
  | make name samples channels rate =>
    rw [Shelf.perform]
    exact hs.made (Buffer.make_eq samples channels rate s) name
  | silence name format length =>
    rw [Shelf.perform]
    exact hs.made (Buffer.silence_eq format length s) name
  | sample name i =>
    -- a sample is only looked up, so the frame stays
    have hsample : ∀ f, Buffer.sample i (Buffer.ofFrame f) = .error .assertion (Buffer.ofFrame f) ∨
        ∃ slots g, True ∧ Buffer.sample i (Buffer.ofFrame f) = .ok slots (Buffer.ofFrame g) := by
      intro f
      rcases Buffer.sample_cases (Buffer.ofFrame f) i with hstop | ⟨slots, hend⟩
      · exact .inl hstop
      · exact .inr ⟨slots, f, trivial, hend⟩
    rw [Shelf.perform]
    rcases hs.on_cases name hsample with hstop | ⟨slots, t, -, ht, hend⟩
    · exact .inl hstop
    · exact .inr ⟨slots, t, ht, hend⟩
  -- what is left in the buffer is that of a frame, and there is no answer
  | setSlot name slot x =>
    rw [Shelf.perform]
    rcases hs.on_cases name (P := fun _ => True) fun f =>
        Buffer.cases_of_granted (Buffer.setSlot_eq f slot x) fun _ => trivial with
      hstop | ⟨⟨⟩, t, -, ht, hend⟩
    · exact .inl (Call.bind_of_error hstop)
    · exact .inr ⟨[], t, ht, Call.bind_of_ok hend⟩
  | splitOff name n tail =>
    rw [Shelf.perform]
    -- what is split off is the buffer of a frame as well
    rcases hs.on_cases name (P := fun b => ∃ g, b = Buffer.ofFrame g) fun f =>
        Buffer.cases_of_granted (Buffer.splitOff_eq f n) fun parts => ⟨parts.2, rfl⟩ with
      hstop | ⟨-, t, ⟨g, rfl⟩, ht, hend⟩
    · exact .inl (Call.bind_of_error hstop)
    · exact .inr ⟨[], _, ht.put tail g, Call.bind_of_ok hend⟩
  | append name other =>
    rw [Shelf.perform]
    rcases hs.held_cases other with hnone | ⟨g, -, hheld⟩
    · exact .inl (Call.bind_of_error hnone)
    rw [Call.bind_of_ok hheld]
    -- the copy stays what it is, also if both names are the same
    rcases hs.on_cases name (P := fun _ => True) fun f =>
        Buffer.cases_of_granted (Buffer.append_eq f g) fun _ => trivial with
      hstop | ⟨⟨⟩, t, -, ht, hend⟩
    · exact .inl (Call.bind_of_error hstop)
    · exact .inr ⟨[], t, ht, Call.bind_of_ok hend⟩
  | intoInterleaved name =>
    rw [Shelf.perform]
    -- the buffer is taken away with its samples
    rcases hs.held_cases name with hnone | ⟨f, -, hheld⟩
    · exact .inl (Call.bind_of_error hnone)
    · exact .inr ⟨f.samples, _, hs.put_none name, Call.bind_of_ok hheld⟩

/-- By induction on the steps: every step leaves buffers of frames, also one that stops. -/
theorem Framed.run (hs : Framed s) (steps : List Step) : Framed (run s steps) := by
  induction steps generalizing s with
  | nil => exact hs
  -- one step leaves buffers of frames, and the rest of the steps start from those
  | cons step steps ih =>
    rw [Shelf.run, List.foldl_cons]
    refine ih ?_
    unfold Call.leaves
    rcases hs.perform step with hstop | ⟨a, t, ht, hend⟩
    · rw [hstop]
      exact hs
    · rw [hend]
      exact ht

/-- What a host keeps under names has a channel, and no sample of it lacks one. -/
theorem channels_of_run (steps : List Step) (name : String) (b : Buffer)
    (h : run empty steps name = some b) : 0 < b.channels ∧ b.channels ∣ b.samples.length := by
  obtain ⟨f, rfl⟩ := framed_empty.run steps name b h
  exact ⟨f.channels_pos, f.channels_dvd⟩

/-- A step that stops changes nothing. -/
theorem Framed.leaves_of_stops (hs : Framed s) {step : Step} (h : (Shelf.perform step).Stops s) :
    (Shelf.perform step).leaves s = s := by
  obtain ⟨reason, s', hstop⟩ := h
  unfold Call.leaves
  rcases hs.perform step with hleft | ⟨a, t, -, hend⟩
  · rw [hleft]
  · exact nomatch hstop.symm.trans hend

/-- The laws of frames. Whatever a host does with buffers under names, each of them has a channel
and lacks none in any sample, and a step that stops changes nothing. A frame that is cut comes
together again, and one that is joined comes apart again, in samples per channel. Joining is
associative and has empty frames as units, cuts may be made in any order, and a sample of a joined
frame is one of its parts. The calls in place come to what these operations give: a cut stops
exactly past the end, and joining exactly for different formats. In a buffer that can be addressed,
looking up a sample stops exactly from the length on, also where its position does not fit a
word. -/
theorem frame_algebra :
    (∀ steps name b, run empty steps name = some b →
      0 < b.channels ∧ b.channels ∣ b.samples.length) ∧
    (∀ steps step, (perform step).Stops (run empty steps) →
      (perform step).leaves (run empty steps) = run empty steps) ∧
    (∀ (f : Frame) (n : Nat), n ≤ f.length → ∃ head tail, f.splitAt? n = some (head, tail) ∧
      head.length = n ∧ tail.length = f.length - n ∧ head.append? tail = some f) ∧
    (∀ f g : Frame, f.format = g.format → ∃ joined, f.append? g = some joined ∧
      joined.splitAt? f.length = some (f, g)) ∧
    (∀ f g h : Frame, f.format = g.format → g.format = h.format → ∃ fg gh joined,
      f.append? g = some fg ∧ g.append? h = some gh ∧
        fg.append? h = some joined ∧ f.append? gh = some joined) ∧
    (∀ f e : Frame, f.format = e.format → e.isEmpty = true →
      f.append? e = some f ∧ e.append? f = some f) ∧
    (∀ (f : Frame) (n k : Nat),
      ((f.splitAt? n).bind fun (x, yz) => (yz.splitAt? k).map fun (y, z) => (x, y, z)) =
        (f.splitAt? (n + k)).bind fun (xy, z) => (xy.splitAt? n).map fun (x, y) => (x, y, z)) ∧
    (∀ (f g joined : Frame) (i : Nat), f.append? g = some joined →
      joined.sample? i = if i < f.length then f.sample? i else g.sample? (i - f.length)) ∧
    (∀ (f : Frame) (n : Nat), Buffer.splitOff n (.ofFrame f) = Call.granted (.ofFrame f)
      ((f.splitAt? n).map fun parts => (.ofFrame parts.2, .ofFrame parts.1))) ∧
    (∀ f g : Frame, Buffer.append (.ofFrame g) (.ofFrame f) = Call.granted (.ofFrame f)
      ((f.append? g).map fun joined => ((), .ofFrame joined))) ∧
    (∀ (f : Frame) (i : Nat), f.samples.length < 1 <<< 64 →
      Buffer.sample i (.ofFrame f) = Call.granted (.ofFrame f)
        ((f.sample? i).map fun slots => (slots, .ofFrame f))) ∧
    (∀ (f : Frame) (n : Nat), f.splitAt? n = none ↔ f.length < n) ∧
    (∀ f g : Frame, f.append? g = none ↔ f.format ≠ g.format) ∧
    ∀ (f : Frame) (i : Nat), f.sample? i = none ↔ f.length ≤ i := by
  -- what says no more than a lemma about frames or buffers is that lemma
  refine ⟨channels_of_run, fun steps step => (framed_empty.run steps).leaves_of_stops, ?_, ?_, ?_,
    ?_, Frame.splitAt?_splitAt?, fun f g joined i hjoined => Frame.sample?_of_append? hjoined i,
    Buffer.splitOff_eq, Buffer.append_eq, fun f i hf => Buffer.sample_eq hf i,
    Frame.splitAt?_eq_none_iff, Frame.append?_eq_none_iff, Frame.sample?_eq_none_iff⟩
  -- cut at `n` and joined again
  · intro f n hn
    have hhead : (f.take n).length = n := by rw [Frame.length_take, Nat.min_eq_left hn]
    exact ⟨f.take n, f.drop n, Frame.splitAt?_of_le hn, hhead, f.length_drop n,
      f.append?_take_drop n⟩
  -- joined and cut where the first part ends
  · intro f g hformat
    obtain ⟨joined, hjoined, -, -⟩ := Frame.append?_of_format_eq hformat
    exact ⟨joined, hjoined, Frame.splitAt?_of_append? hjoined⟩
  -- both ways to join three frames come to the same one
  · intro f g h hfg hgh
    obtain ⟨fg, hfg', -, -⟩ := Frame.append?_of_format_eq hfg
    obtain ⟨gh, hgh', -, -⟩ := Frame.append?_of_format_eq hgh
    obtain ⟨joined, hleft, hright⟩ := Frame.append?_assoc hfg' hgh'
    exact ⟨fg, gh, joined, hfg', hgh', hleft, hright⟩
  -- a frame without samples is a unit on either side
  · intro f e hformat hempty
    exact ⟨Frame.append?_empty hformat hempty, Frame.empty_append? hformat.symm hempty⟩

end Shelf

end DynamicRange
