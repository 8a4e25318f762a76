import DynamicRange.InPlace
import DynamicRange.Proofs.Coherence

/-!
# Calls in place against the operations

Step by step in place, a call comes to the same result as the operation that computes the new state
as a whole. When the operation refuses, the call has stopped before it has written anything: each
check stands before the first assignment.

## Key results

- `Engine.InPlace.setSettings_eq`, `Engine.InPlace.process_eq`,
  `Engine.InPlace.processInPlace_eq`: the engine
- `Pairing.InPlace.push_eq`, `Pairing.InPlace.takePair_eq`: the slots
- `Compressor.InPlace.process_eq`, `SidechainCompressor.InPlace.push_eq`: a frame of one stream, and
  a push as a whole
-/

namespace DynamicRange

namespace Call

variable {σ τ α β : Type}

/-- What a call comes to when it gives the result `r` and, without one, leaves the state `s`. -/
def outcome (s : σ) : Except Abort (α × σ) → EStateM.Result Abort σ α
  | .ok (a, t) => .ok a t
  | .error reason => .error reason s

/-- A call that comes to its end hands its answer and state to the next one. -/
theorem bind_of_ok {call : Call σ α} {next : α → Call σ β} {s t : σ} {a : α}
    (h : call s = .ok a t) : (call >>= next) s = next a t := by
  show EStateM.bind call next s = _
  rw [EStateM.bind, h]

/-- A call that stops is all there is. -/
theorem bind_of_error {call : Call σ α} {next : α → Call σ β} {s t : σ} {reason : Abort}
    (h : call s = .error reason t) : (call >>= next) s = .error reason t := by
  show EStateM.bind call next s = _
  rw [EStateM.bind, h]

/-- Reading the state leaves it as it is. -/
theorem get_bind (next : σ → Call σ β) (s : σ) : (get >>= next) s = next s s := rfl

/-- A change of the state is all that comes of it. -/
theorem modify_bind (f : σ → σ) (next : Unit → Call σ β) (s : σ) :
    ((modify f : Call σ Unit) >>= next) s = next () (f s) := rfl

/-- A check leaves the state alone, whatever it finds. -/
theorem require_bind (p : Prop) [Decidable p] (reason : Abort) (next : Unit → Call σ β) (s : σ) :
    (require p reason >>= next) s = if p then next () s else .error reason s := by
  unfold require
  split <;> rfl

/-- A slice is taken exactly within the buffer, and the state stays. -/
theorem slice_eq (buffer : List Sample) (start stop : Nat) (s : σ) :
    slice buffer start stop s =
      if start ≤ stop ∧ stop ≤ buffer.length then
        .ok ((buffer.drop start).take (stop - start)) s
      else .error .assertion s :=
  require_bind ..

end Call

/-! ### The engine -/

namespace Engine.InPlace

/-- The assignments together are `Engine.adopt`. -/
theorem adopt_eq (s : Settings) (e : Engine) : adopt s e = .ok () (e.adopt s) := rfl

/-- A parameter is set in place as it is set. -/
theorem setParameter_eq (i : Nat) (x : Float32) (e : Engine) :
    setParameter i x e = .ok () (Parametric.setParameter e i x) := rfl

/-- Settings are taken in place as they are, or refused with the engine as it was. -/
theorem setSettings_eq (s : Settings) (e : Engine) :
    setSettings s e = Call.outcome e
      (((e.setSettings s).map fun e' => ((), e')).mapError Abort.settings) := by
  unfold setSettings Engine.setSettings
  cases s.validate with
  | error err => rfl
  | ok u => rfl

section Sweep

variable {channels i n : Nat} {done rest : List Sample}

/-- One sample: it is read from the rest, and rewritten at the end of what is done. -/
private theorem sweep_succ (detector : List Sample → Nat → List Sample)
    (hdone : done.length = i * channels) (e : Engine) :
    sweep channels detector i (n + 1) (e, done ++ rest) =
      sweep channels detector (i + 1) n ((e.step (detector (done ++ rest) i)).2,
        (done ++ scale (e.step (detector (done ++ rest) i)).1 (rest.take channels)) ++
          rest.drop channels) := by
  -- what is done has its length, so reading and writing both begin where the rest begins
  have htake : (done ++ rest).take (i * channels) = done := List.take_left' hdone
  have hsample : sampleAt channels (done ++ rest) i = rest.take channels := by
    rw [sampleAt, List.drop_left' hdone]
  have hdrop : (done ++ rest).drop ((i + 1) * channels) = rest.drop channels := by
    rw [Nat.succ_mul, ← hdone, List.drop_append]
    simp
  have hbuffer : (done ++ rest).take (i * channels) ++
      scale (e.step (detector (done ++ rest) i)).1 (sampleAt channels (done ++ rest) i) ++
        (done ++ rest).drop ((i + 1) * channels) =
      (done ++ scale (e.step (detector (done ++ rest) i)).1 (rest.take channels)) ++
        rest.drop channels := by
    rw [htake, hsample, hdrop]
  rw [← hbuffer]
  rfl

/-- What is done grows by a whole sample. -/
private theorem length_done (hdone : done.length = i * channels) (hrest : channels ≤ rest.length)
    (factor : Float32) :
    (done ++ scale factor (rest.take channels)).length = (i + 1) * channels := by
  rw [List.length_append, hdone, scale, List.length_map, List.length_take, Nat.min_eq_left hrest,
    Nat.succ_mul]

/-- The samples of a sweep, with a detector that is not rewritten. By induction on the number of
samples that are left. -/
private theorem sweep_eq (detector : List Sample) (dc : Nat) (hdone : done.length = i * channels)
    (hrest : n * channels ≤ rest.length) (e : Engine) :
    sweep channels (fun _ => sampleAt dc detector) i n (e, done ++ rest) =
      .ok () (e.after (groups dc n (detector.drop (i * dc))),
        done ++ (e.output rest channels (detector.drop (i * dc)) dc n ++
          rest.drop (n * channels))) := by
  induction n generalizing i e done rest with
  | zero => simp [sweep, pure, EStateM.pure]
  | succ n ih =>
    rw [Nat.succ_mul] at hrest
    have hfirst : channels ≤ rest.length := by omega
    -- what follows the first sample is enough for the samples that are left
    have hlater : n * channels ≤ (rest.drop channels).length := by
      rw [List.length_drop]
      omega
    have hdetector : (detector.drop (i * dc)).drop dc = detector.drop ((i + 1) * dc) := by
      rw [List.drop_drop, Nat.succ_mul]
    have hleft : (rest.drop channels).drop (n * channels) = rest.drop ((n + 1) * channels) := by
      rw [List.drop_drop, Nat.succ_mul, Nat.add_comm]
    rw [sweep_succ _ hdone, ih (length_done hdone hfirst _) hlater, hleft, groups_succ,
      hdetector]
    simp only [output, groups_succ, factors, hdetector, sampleAt, List.zipWith_cons_cons,
      List.flatten_cons, List.append_assoc, after_cons]

/-- A buffer that is its own detector: what has not had its turn is as it was at the start. -/
private theorem sweep_self {signal : List Sample} (hdone : done.length = i * channels)
    (hsignal : (i + n) * channels ≤ signal.length) (e : Engine) :
    sweep channels (sampleAt channels) i n (e, done ++ signal.drop (i * channels)) =
      sweep channels (fun _ => sampleAt channels signal) i n
        (e, done ++ signal.drop (i * channels)) := by
  induction n generalizing i e done with
  | zero => rfl
  | succ n ih =>
    have hnext : (i + 1 + n) * channels ≤ signal.length := by rwa [Nat.add_right_comm]
    have hfirst : channels ≤ (signal.drop (i * channels)).length := by
      rw [Nat.add_mul, Nat.add_mul] at hnext
      rw [List.length_drop]
      omega
    -- the sample that is read lies in the part that has not been rewritten
    have hread : sampleAt channels (done ++ signal.drop (i * channels)) i =
        sampleAt channels signal i := by
      rw [sampleAt, List.drop_left' hdone, sampleAt]
    have hrest : (signal.drop (i * channels)).drop channels = signal.drop ((i + 1) * channels) := by
      rw [List.drop_drop, Nat.succ_mul]
    rw [sweep_succ _ hdone, sweep_succ _ hdone, hread, hrest]
    exact ih (length_done hdone hfirst _) hnext _

/-- The samples of a sweep over a whole buffer. -/
private theorem sweep_start (detector : List Sample) (dc : Nat)
    (hrest : n * channels ≤ rest.length) (e : Engine) :
    sweep channels (fun _ => sampleAt dc detector) 0 n (e, rest) =
      .ok () (e.after (groups dc n detector),
        e.output rest channels detector dc n ++ rest.drop (n * channels)) := by
  have hdone : ([] : List Sample).length = 0 * channels := (Nat.zero_mul channels).symm
  simpa using sweep_eq detector dc hdone hrest e

end Sweep

/-- The buffer after `process`, or as it was when a check fails. -/
theorem process_eq (e : Engine) (main : List Sample) (mc : Nat) (detector : List Sample)
    (dc n : Nat) :
    process mc detector dc n (e, main) = Call.outcome (e, main)
      (match e.process? main mc detector dc n with
        | some (samples, e') => .ok ((), e', samples)
        | none => .error .assertion) := by
  -- the checks in their order: channels, then both buffers
  simp only [process, Call.require_bind, Call.get_bind, process?]
  by_cases hchannels : 0 < mc ∧ 0 < dc
  · by_cases hmain : n * mc ≤ main.length
    · by_cases hdetector : n * dc ≤ detector.length
      · have hsweep := sweep_start detector dc hmain e
        simpa [hchannels, hmain, hdetector, Call.outcome, Engine.process_eq] using hsweep
      · simp [hchannels, hmain, hdetector, Call.outcome]
    · simp [hchannels, hmain, Call.outcome]
  · rw [if_neg hchannels, if_neg fun h => hchannels ⟨h.1, h.2.1⟩]
    rfl

/-- The same for a buffer that is its own detector. -/
theorem processInPlace_eq (e : Engine) (signal : List Sample) (channels n : Nat) :
    processInPlace channels n (e, signal) = Call.outcome (e, signal)
      (match e.processInPlace? signal channels n with
        | some (samples, e') => .ok ((), e', samples)
        | none => .error .assertion) := by
  -- as above, with the buffer itself as the detector
  simp only [processInPlace, Call.require_bind, Call.get_bind, processInPlace?]
  by_cases hchannels : 0 < channels
  · by_cases hsignal : n * channels ≤ signal.length
    · have hdone : ([] : List Sample).length = 0 * channels := (Nat.zero_mul channels).symm
      have hself := sweep_self hdone ((Nat.zero_add n).symm ▸ hsignal) e
      simp only [Nat.zero_mul, List.drop_zero, List.nil_append] at hself
      rw [if_pos hchannels, if_pos hsignal, hself, sweep_start signal channels hsignal e,
        if_pos ⟨hchannels, hsignal⟩, processInPlace_eq_process, Engine.process_eq]
      rfl
    · simp [hchannels, hsignal, Call.outcome]
  · simp [hchannels, Call.outcome]

end Engine.InPlace

/-! ### The slots -/

namespace Pairing.InPlace

/-- A push, whose format is looked at before the slot is freed. -/
theorem push_eq {p : Pairing} (hp : p.WellFormed) (line : Line) (f : Frame) :
    push line f p =
      Call.outcome p (((p.push line f).map fun q => ((), q)).mapError Abort.format) := by
  simp only [push, Call.require_bind, Call.get_bind, Pairing.push]
  by_cases hformat : f.format = p.formats.get line
  · rw [if_pos hformat, if_neg (not_not_intro hformat)]
    cases hempty : f.isEmpty with
    | true => rfl
    | false =>
      cases hslot : p.slots.get line with
      | none =>
        cases line <;> rfl
      | some held =>
        -- what is held has the format of its line, so joining cannot fail
        obtain ⟨joined, hjoin, -⟩ :=
          Frame.append?_of_format_eq ((hp.format_eq hslot).trans hformat.symm)
        simp only [hjoin]
        cases line <;> rfl
  · rw [if_neg hformat, if_pos hformat]
    rfl

/-- The first samples of a line; what is left goes back into the slot. -/
private theorem takeHead_eq {p : Pairing} (line : Line) {f : Frame} {n : Nat}
    (hslot : p.slots.get line = some f) (hn : n ≤ f.length) :
    takeHead line n p =
      .ok (some (f.take n)) { p with slots := p.slots.set line (slotOf (f.drop n)) } := by
  simp only [takeHead, Call.get_bind, hslot, Frame.splitAt?_of_le hn]
  cases hempty : (f.drop n).isEmpty <;> cases line <;> simp [slotOf, hempty] <;> rfl

/-- A pair, taken off one line after the other. -/
theorem takePair_eq (p : Pairing) :
    takePair p = match p.takePair with
      | some (pair, q) => .ok (some pair) q
      | none => .ok none p := by
  -- a pair needs a frame in both slots
  cases hm : p.slots.main with
  | none => simp only [takePair, Call.get_bind, Pairing.takePair, hm]; rfl
  | some main =>
    cases hs : p.slots.sidechain with
    | none => simp only [takePair, Call.get_bind, Pairing.takePair, hm, hs]; rfl
    | some sidechain =>
      -- the common length is within both frames, so neither head fails
      rw [takePair_of_slots hm hs]
      have hmain := takeHead_eq .main hm (Nat.min_le_left main.length sidechain.length)
      have hsidechain := takeHead_eq .sidechain
        (p := { p with
                slots := p.slots.set .main
                  (slotOf (main.drop (min main.length sidechain.length))) })
        hs (Nat.min_le_right main.length sidechain.length)
      simp only [takePair, Call.get_bind, hm, hs]
      refine (Call.bind_of_ok hmain).trans ?_
      exact (Call.bind_of_ok hsidechain).trans rfl

end Pairing.InPlace

/-! ### The compressors -/

open Call (bind_of_ok bind_of_error)

namespace Compressor.InPlace

/-- A frame has channels and all its samples, so it passes the checks of the engine. -/
theorem process_eq (c : Compressor) (f : Frame) :
    process f c = .ok (c.process f).1 (c.process f).2 := by
  have hfollow : (modify fun c => c.follow f : Call Compressor Unit) c = .ok () (c.follow f) := rfl
  have hengine : onEngine (Engine.InPlace.within f.samples
      (Engine.InPlace.processInPlace f.channels f.length)) (c.follow f) =
        .ok ((c.follow f).engine.processInPlace f.samples f.channels f.length).1
          { c.follow f with
            engine := ((c.follow f).engine.processInPlace f.samples f.channels f.length).2 } := by
    rw [onEngine, Call.on, Engine.InPlace.within, Engine.InPlace.processInPlace_eq,
      Engine.processInPlace?, if_pos ⟨f.channels_pos, Frame.mul_channels_le (Nat.le_refl _)⟩]
    rfl
  exact (bind_of_ok hfollow).trans (bind_of_ok hengine)

end Compressor.InPlace

namespace SidechainCompressor.InPlace

/-- The engine passes through a pair, whose halves have channels and the same length. -/
private theorem within_pair_eq {p q : Pairing} (hp : p.WellFormed) {pair : PerLine Frame}
    (h : p.takePair = some (pair, q)) (e : Engine) :
    Engine.InPlace.within pair.main.samples
        (Engine.InPlace.process pair.main.channels pair.sidechain.samples pair.sidechain.channels
          pair.main.length) e =
      .ok (e.process pair.main.samples pair.main.channels pair.sidechain.samples
          pair.sidechain.channels pair.main.length).1
        (e.process pair.main.samples pair.main.channels pair.sidechain.samples
          pair.sidechain.channels pair.main.length).2 := by
  obtain ⟨-, -, -, hlines⟩ := Pairing.takePair_eq_some hp h
  -- both halves have the common length, and each is a frame of its own
  have hlength : pair.main.length = pair.sidechain.length :=
    (hlines .main).2.1.trans (hlines .sidechain).2.1.symm
  have hmain : pair.main.length * pair.main.channels ≤ pair.main.samples.length :=
    Frame.mul_channels_le (Nat.le_refl _)
  have hsidechain :
      pair.main.length * pair.sidechain.channels ≤ pair.sidechain.samples.length :=
    Frame.mul_channels_le (Nat.le_of_eq hlength)
  rw [Engine.InPlace.within, Engine.InPlace.process_eq, Engine.process?,
    if_pos ⟨pair.main.channels_pos, pair.sidechain.channels_pos, hmain, hsidechain⟩]
  rfl

/-- A push as a whole: a frame that is refused is refused before anything is written, and the span
that is taken off both lines passes the checks of the engine. -/
theorem push_eq {c : SidechainCompressor} (hc : c.pairing.WellFormed) (line : Line) (f : Frame) :
    push line f c = Call.outcome c ((c.push line f).mapError Abort.format) := by
  have hpush := Pairing.InPlace.push_eq hc line f
  unfold push SidechainCompressor.push
  -- a frame of the right format goes into its slot, and a pair may be complete then
  by_cases hf : f.format = c.pairing.formats.get line
  · obtain ⟨p, h, hp, -, -⟩ := Pairing.push_of_format_eq hc hf
    rw [h] at hpush ⊢
    have htake := Pairing.InPlace.takePair_eq p
    rw [bind_of_ok (a := ()) (t := { c with pairing := p })
      (by simp only [onPairing, Call.on, hpush]; rfl)]
    show _ = Call.outcome c (.ok (drain _))
    -- without a pair the engine is not run
    cases hpair : p.takePair with
    | none =>
      rw [hpair] at htake
      rw [bind_of_ok (a := none) (t := { c with pairing := p })
        (by simp only [onPairing, Call.on, htake])]
      simp only [drain, hpair]
      rfl
    | some r =>
      obtain ⟨pair, q⟩ := r
      rw [hpair] at htake
      rw [bind_of_ok (a := some pair) (t := { c with pairing := q })
        (by simp only [onPairing, Call.on, htake])]
      simp only [drain, hpair]
      exact bind_of_ok (by simp only [onEngine, Call.on, within_pair_eq hp hpair])
  · obtain ⟨err, h⟩ := (Pairing.push_eq_error_iff hc line f).mpr hf
    rw [h] at hpush ⊢
    exact bind_of_error (by simp only [onPairing, Call.on, hpush]; rfl)

end SidechainCompressor.InPlace

end DynamicRange
