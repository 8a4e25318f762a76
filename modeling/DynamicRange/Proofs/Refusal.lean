import DynamicRange.Proofs.InPlace
import DynamicRange.Proofs.Observation

/-!
# Rejected operations

An operation is rejected when its call stops, or when it finds nothing to do: a parameter that is
set to no number or does not exist, an empty frame while no pair can be taken. Some of these write
all the same. Setting a parameter takes the settings over again and derives anew what follows from
them, which comes to what is there already only because the engine is coherent.

So a rejected operation leaves no trace, and a run with rejected operations inserted is observed as
the run without them.

## Key results

- `observe_unmarked`: runs with insertions, of any system
- `Engine.InPlace.leaves_of_rejects`, `Compressor.InPlace.leaves_of_rejects`,
  `SidechainCompressor.InPlace.leaves_of_rejects`: one operation
- `rejected_of_reachable`: engines and both compressors, in every state that can be reached
-/

namespace DynamicRange

/-! ### Insertions into a run -/

section Run

variable {State Op Reading Reply α : Type}

/-- The entries of a list that are not marked. -/
def unmarked (xs : List (α × Bool)) : List α :=
  xs.filterMap fun (x, marked) => if marked then none else some x

/-- Of an empty list no entries are left. -/
@[simp] theorem unmarked_nil : unmarked ([] : List (α × Bool)) = [] := rfl

/-- An entry that is marked is left out. -/
@[simp] theorem unmarked_cons_true (x : α) (xs : List (α × Bool)) :
    unmarked ((x, true) :: xs) = unmarked xs := rfl

/-- An entry that is not marked stays. -/
@[simp] theorem unmarked_cons_false (x : α) (xs : List (α × Bool)) :
    unmarked ((x, false) :: xs) = x :: unmarked xs := rfl

/-- Each marked operation of a run is rejected in the state that it meets. -/
def MarksRejected (perform : State → Op → State) (rejects : State → Op → Prop) :
    State → List (Op × Bool) → Prop
  | _, [] => True
  | s, (op, marked) :: run =>
    (marked = true → rejects s op) ∧ MarksRejected perform rejects (perform s op) run

/-- Inserted into a run, operations that leave every state alone do not show: neither in the state
at the end nor in what is read and answered along the other operations. -/
theorem observe_unmarked {perform : State → Op → State} {rejects : State → Op → Prop}
    {I : State → Prop} (hstep : ∀ {s}, I s → ∀ op, I (perform s op))
    (hrejects : ∀ {s}, I s → ∀ {op}, rejects s op → perform s op = s) (read : State → Reading)
    (reply : State → Op → Reply) {s : State} (hs : I s) {run : List (Op × Bool)}
    (h : MarksRejected perform rejects s run) :
    (run.map Prod.fst).foldl perform s = (unmarked run).foldl perform s ∧
      unmarked ((observe perform read reply s (run.map Prod.fst)).zip (run.map Prod.snd)) =
        observe perform read reply s (unmarked run) := by
  -- on the operations: an inserted one leaves the state, so the rest of the run meets the same one
  induction run generalizing s with
  | nil => exact ⟨rfl, rfl⟩
  | cons first run ih =>
    obtain ⟨op, marked⟩ := first
    obtain ⟨hstate, hobserve⟩ := ih (hstep hs op) h.2
    cases marked with
    | true =>
      -- the run goes on from the state that the inserted operation has met
      have hsame : perform s op = s := hrejects hs (h.1 rfl)
      rw [hsame] at hstate hobserve
      simpa [observe, hsame] using And.intro hstate hobserve
    | false => simpa [observe] using And.intro hstate hobserve

end Run

/-! ### Calls that stop -/

namespace Call

variable {σ τ α β : Type}

/-- Why a call stops, or its answer. -/
def answer (call : Call σ α) (s : σ) : Except Abort α :=
  match call s with
  | .ok a _ => .ok a
  | .error reason _ => .error reason

/-- A call that comes to the result of an operation leaves the state alone when it stops. -/
theorem leaves_of_stops {call : Call σ α} {s : σ} {r : Except Abort (α × σ)}
    (h : call s = outcome s r) (hstops : call.Stops s) : call.leaves s = s := by
  -- a call that stops has an outcome without a result, which keeps the state
  obtain ⟨reason, s', hstop⟩ := hstops
  rw [leaves, h]
  rw [h] at hstop
  cases r with
  | error _ => rfl
  | ok _ => exact nomatch hstop

/-- What a call leaves: the state of its result, or the state it met. -/
theorem leaves_of_eq {call : Call σ α} {s : σ} {r : Except Abort (α × σ)}
    (h : call s = outcome s r) : call.leaves s = (r.map Prod.snd).toOption.getD s := by
  rw [leaves, h]
  cases r <;> rfl

/-- The same of another answer. -/
theorem map_eq {call : Call σ α} {s : σ} {r : Except Abort (α × σ)} {f : α → β}
    (h : call s = outcome s r) : (f <$> call) s = outcome s (r.map fun (a, t) => (f a, t)) := by
  show EStateM.map f call s = _
  rw [EStateM.map, h]
  cases r <;> rfl

/-- A call on a part that comes to the result of an operation, on the whole. -/
theorem on_eq {part : σ → τ} {put : σ → τ → σ} (hput : ∀ s, put s (part s) = s) {call : Call τ α}
    {s : σ} {r : Except Abort (α × τ)} (h : call (part s) = outcome (part s) r) :
    call.on part put s = outcome s (r.map fun (a, t) => (a, put s t)) := by
  rw [on, h]
  cases r with
  | error reason => simp only [outcome, hput]; rfl
  | ok _ => rfl

end Call

/-- Whether setting parameter `i` to `x` is setting nothing: `x` is not a number, or there is no
such parameter. -/
def SetsNothing (i : Nat) (x : Float32) : Prop := x.isNaN = true ∨ Control.all.length ≤ i

/-- Setting nothing leaves the settings as they are. -/
theorem Settings.setParameter_of_setsNothing {i : Nat} {x : Float32} (h : SetsNothing i x)
    (s : Settings) : Parametric.setParameter s i x = s := by
  -- a control that is set to NaN stays, and there is no control past the last
  rcases h with hx | hi
  · show ((Control.ofIndex? i).map fun c => s.set c x).getD s = s
    have hset : ∀ c, s.set c x = s := fun c => if_pos hx
    cases Control.ofIndex? i <;> simp [hset]
  · have hnone : Control.ofIndex? i = none := List.getElem?_eq_none hi
    show ((Control.ofIndex? i).map fun c => s.set c x).getD s = s
    rw [hnone]
    rfl

/-! ### The engine -/

namespace Engine

/-- To derive anew what is kept beside the settings is to derive what is there. -/
theorem Coherent.adopt_settings {e : Engine} (h : e.Coherent) : e.adopt e.settings = e := by
  have henvelope : (e.envelope.setAttack e.settings.attack).setRelease e.settings.release =
      e.envelope := by
    -- the coefficients that are derived anew are those there are
    simp only [Envelope.setAttack, Envelope.setRelease, Envelope.derive, ← h.attack_eq,
      ← h.release_eq]
    have hattack := h.attackCoefficient_eq
    have hrelease := h.releaseCoefficient_eq
    rw [← h.attack_eq] at hattack
    rw [← h.release_eq] at hrelease
    exact Envelope.mk.injEq .. |>.mpr ⟨rfl, hattack.symm, hrelease.symm, rfl, rfl, rfl⟩
  rw [adopt, ← h.knee_eq, henvelope]

/-- Setting nothing leaves a coherent engine as it is, though everything is derived anew. -/
theorem Coherent.setParameter_of_setsNothing {e : Engine} (h : e.Coherent) {i : Nat} {x : Float32}
    (hnothing : SetsNothing i x) : Parametric.setParameter e i x = e := by
  show e.adopt (Parametric.setParameter e.settings i x) = e
  rw [Settings.setParameter_of_setsNothing hnothing, h.adopt_settings]

/-- The buffer that an operation rewrites. -/
def Op.buffer : Op → List Sample
  | .process main .. => main
  | .processInPlace signal .. => signal
  | .setSettings _ | .setParameter .. | .setRate _ | .reset => []

namespace InPlace

/-- An operation as a call on the engine and on the buffer that it rewrites. -/
def call : Op → Call (Engine × List Sample) Unit
  | .setSettings s => beside (setSettings s)
  | .setParameter i x => beside (setParameter i x)
  | .setRate rate => beside (modify (·.setRate rate))
  | .process _ mc detector dc n => process mc detector dc n
  | .processInPlace _ channels n => processInPlace channels n
  | .reset => beside (modify Engine.reset)

/-- The engine that an operation leaves, whether it comes to its end or stops. -/
def perform (e : Engine) (op : Op) : Engine := ((call op).leaves (e, op.buffer)).1

/-- The engine after a run of operations in place. -/
def performAll (e : Engine) (ops : List Op) : Engine := ops.foldl perform e

/-- Why an operation stops, if it does, and what it leaves in the buffer. -/
def reply (e : Engine) (op : Op) : Except Abort Unit × List Sample :=
  ((call op).answer (e, op.buffer), ((call op).leaves (e, op.buffer)).2)

/-- The readings and answers along a run in place. -/
def observe : Engine → List Op → List (Reading × Except Abort Unit × List Sample) :=
  DynamicRange.observe perform read reply

/-- Whether an operation is rejected. -/
def Rejects (e : Engine) (op : Op) : Prop :=
  (call op).Stops (e, op.buffer) ∨ ∃ i x, op = .setParameter i x ∧ SetsNothing i x

/-- Each call comes to the result of its operation, and only if it does not stop. -/
theorem call_eq (e : Engine) (op : Op) :
    ∃ r, call op (e, op.buffer) = Call.outcome (e, op.buffer) r ∧
      ((r.map Prod.snd).toOption.getD (e, op.buffer)).1 = e.perform op := by
  -- operations that may stop come to a result; the others always do
  cases op with
  | setSettings s =>
    have h : beside _ (e, []) = _ := Call.on_eq (fun _ => rfl) (setSettings_eq s e)
    refine ⟨_, h, ?_⟩
    rcases e.setSettings_cases s with ⟨-, heq⟩ | ⟨err, -, heq⟩ <;>
      simp only [Engine.perform, heq] <;> rfl
  | setParameter i x => exact ⟨.ok ((), Parametric.setParameter e i x, []), rfl, rfl⟩
  | setRate rate => exact ⟨.ok ((), e.setRate rate, []), rfl, rfl⟩
  | process main mc detector dc n =>
    refine ⟨_, process_eq e main mc detector dc n, ?_⟩
    simp only [Engine.perform]
    cases e.process? main mc detector dc n <;> rfl
  | processInPlace signal channels n =>
    refine ⟨_, processInPlace_eq e signal channels n, ?_⟩
    simp only [Engine.perform]
    cases e.processInPlace? signal channels n <;> rfl
  | reset => exact ⟨.ok ((), e.reset, []), rfl, rfl⟩

/-- The engine that an operation in place leaves is that of the operation. -/
theorem perform_eq : perform = Engine.perform := by
  funext e op
  obtain ⟨r, h, hr⟩ := call_eq e op
  rw [perform, Call.leaves_of_eq h, hr]

/-- The engine that a run in place leaves is that of the run. -/
theorem performAll_eq (e : Engine) (ops : List Op) : performAll e ops = e.performAll ops := by
  rw [performAll, perform_eq, Engine.performAll]

/-- An operation in place leaves a coherent engine coherent. -/
theorem coherent_perform {e : Engine} (he : e.Coherent) (op : Op) : (perform e op).Coherent := by
  rw [perform_eq]
  exact he.perform op

/-- A rejected operation leaves the engine and the buffer as they are. -/
theorem leaves_of_rejects {e : Engine} (he : e.Coherent) {op : Op} (h : Rejects e op) :
    (call op).leaves (e, op.buffer) = (e, op.buffer) := by
  rcases h with hstops | ⟨i, x, rfl, hnothing⟩
  -- a call that stops leaves what it met; a parameter may be set without effect
  · obtain ⟨r, hr, -⟩ := call_eq e op
    exact Call.leaves_of_stops hr hstops
  · exact congrArg (·, []) (he.setParameter_of_setsNothing hnothing)

/-- A rejected operation leaves the engine as it is. -/
theorem perform_of_rejects {e : Engine} (he : e.Coherent) {op : Op} (h : Rejects e op) :
    perform e op = e :=
  congrArg Prod.fst (leaves_of_rejects he h)

end InPlace

end Engine

/-! ### One stream -/

namespace Compressor

namespace InPlace

/-- An operation as a call on the compressor. The answer is the frame, if it compresses one. -/
def call : Op → Call Compressor (Option Frame)
  | .setSettings s => (fun _ => none) <$> onEngine (Engine.InPlace.setSettings s)
  | .setParameter i x => (fun _ => none) <$> onEngine (Engine.InPlace.setParameter i x)
  | .setRate rate => (fun _ => none) <$> modify (·.setRate rate)
  | .process f => some <$> process f
  | .reset => (fun _ => none) <$> modify Compressor.reset

/-- The compressor that an operation leaves, whether it comes to its end or stops. -/
def perform (c : Compressor) (op : Op) : Compressor := (call op).leaves c

/-- The compressor after a run of operations in place. -/
def performAll (c : Compressor) (ops : List Op) : Compressor := ops.foldl perform c

/-- The readings and answers along a run in place. -/
def observe : Compressor → List Op → List (Engine.Reading × Except Abort (Option Frame)) :=
  DynamicRange.observe perform (fun c => c.engine.read) fun c op => (call op).answer c

/-- Whether an operation is rejected. -/
def Rejects (c : Compressor) (op : Op) : Prop :=
  (call op).Stops c ∨ ∃ i x, op = .setParameter i x ∧ SetsNothing i x

/-- Each call comes to the result of its operation, and only if it does not stop. -/
theorem call_eq (c : Compressor) (op : Op) :
    ∃ r, call op c = Call.outcome c r ∧ (r.map Prod.snd).toOption.getD c = c.perform op := by
  -- operations that may stop come to a result; the others always do
  cases op with
  | setSettings s =>
    have h : onEngine _ c = _ :=
      Call.on_eq (fun _ => rfl) (Engine.InPlace.setSettings_eq s c.engine)
    refine ⟨_, Call.map_eq h, ?_⟩
    rcases c.engine.setSettings_cases s with ⟨-, heq⟩ | ⟨err, -, heq⟩ <;>
      simp only [Compressor.perform, Compressor.setSettings, heq] <;> rfl
  | setParameter i x => exact ⟨.ok (none, Parametric.setParameter c i x), rfl, rfl⟩
  | setRate rate => exact ⟨.ok (none, c.setRate rate), rfl, rfl⟩
  | process f =>
    exact ⟨_, Call.map_eq (r := .ok (c.process f)) (process_eq c f), rfl⟩
  | reset => exact ⟨.ok (none, c.reset), rfl, rfl⟩

/-- The compressor that an operation in place leaves is that of the operation. -/
theorem perform_eq : perform = Compressor.perform := by
  funext c op
  obtain ⟨r, h, hr⟩ := call_eq c op
  rw [perform, Call.leaves_of_eq h, hr]

/-- The compressor that a run in place leaves is that of the run. -/
theorem performAll_eq (c : Compressor) (ops : List Op) : performAll c ops = c.performAll ops := by
  rw [performAll, perform_eq, Compressor.performAll]

/-- An operation in place leaves a coherent compressor coherent. -/
theorem coherent_perform {c : Compressor} (hc : c.Coherent) (op : Op) :
    (perform c op).Coherent := by
  rw [perform_eq]
  exact hc.perform op

/-- A rejected operation leaves the compressor as it is. -/
theorem leaves_of_rejects {c : Compressor} (hc : c.Coherent) {op : Op} (h : Rejects c op) :
    (call op).leaves c = c := by
  -- a call that stops leaves what it met; a parameter may be set without effect
  rcases h with hstops | ⟨i, x, rfl, hnothing⟩
  · obtain ⟨r, hr, -⟩ := call_eq c op
    exact Call.leaves_of_stops hr hstops
  · show { c with engine := Parametric.setParameter c.engine i x } = c
    rw [hc.engine_coherent.setParameter_of_setsNothing hnothing]

end InPlace

end Compressor

/-! ### Two lines -/

namespace SidechainCompressor

/-- An empty frame of the format of its line brings nothing, when no pair can be taken. -/
theorem push_of_isEmpty {c : SidechainCompressor} {line : Line} {f : Frame}
    (hformat : f.format = c.pairing.formats.get line) (hempty : f.isEmpty = true)
    (hpair : c.pairing.takePair = none) : c.push line f = .ok (none, c) := by
  -- nothing is put into a slot, and no pair is there to be taken
  have hpush : c.pairing.push line f = .ok c.pairing := by
    rw [Pairing.push, if_neg (not_not_intro hformat), if_pos hempty]
  have hdrain : c.drain = (none, c) := by simp only [drain, hpair]
  rw [push, hpush]
  exact congrArg Except.ok hdrain

namespace InPlace

/-- An operation as a call on the compressor. The answer is the frame that a push completes. -/
def call : Op → Call SidechainCompressor (Option Frame)
  | .setSettings s => (fun _ => none) <$> onEngine (Engine.InPlace.setSettings s)
  | .setParameter i x => (fun _ => none) <$> onEngine (Engine.InPlace.setParameter i x)
  | .push line f => push line f
  | .reset => (fun _ => none) <$> modify SidechainCompressor.reset

/-- The compressor that an operation leaves, whether it comes to its end or stops. -/
def perform (c : SidechainCompressor) (op : Op) : SidechainCompressor := (call op).leaves c

/-- The compressor after a run of operations in place. -/
def performAll (c : SidechainCompressor) (ops : List Op) : SidechainCompressor :=
  ops.foldl perform c

/-- The readings and answers along a run in place. -/
def observe :
    SidechainCompressor → List Op → List (Reading × Except Abort (Option Frame)) :=
  DynamicRange.observe perform read fun c op => (call op).answer c

/-- Whether an operation is rejected, or is a push that brings nothing. -/
def Rejects (c : SidechainCompressor) (op : Op) : Prop :=
  (call op).Stops c ∨ (∃ i x, op = .setParameter i x ∧ SetsNothing i x) ∨
    ∃ line f, op = .push line f ∧ f.format = c.pairing.formats.get line ∧ f.isEmpty = true ∧
      c.pairing.takePair = none

/-- Each call comes to the result of its operation, and only if it does not stop. -/
theorem call_eq {c : SidechainCompressor} (hc : c.pairing.WellFormed) (op : Op) :
    ∃ r, call op c = Call.outcome c r ∧ (r.map Prod.snd).toOption.getD c = c.perform op := by
  -- only settings and pushes may stop
  cases op with
  | setSettings s =>
    have h : onEngine _ c = _ :=
      Call.on_eq (fun _ => rfl) (Engine.InPlace.setSettings_eq s c.engine)
    refine ⟨_, Call.map_eq h, ?_⟩
    rcases c.engine.setSettings_cases s with ⟨-, heq⟩ | ⟨err, -, heq⟩ <;>
      simp only [SidechainCompressor.perform, SidechainCompressor.setSettings, heq] <;> rfl
  | setParameter i x => exact ⟨.ok (none, Parametric.setParameter c i x), rfl, rfl⟩
  | push line f =>
    refine ⟨_, push_eq hc line f, ?_⟩
    simp only [SidechainCompressor.perform, feed]
    cases c.push line f <;> rfl
  | reset => exact ⟨.ok (none, c.reset), rfl, rfl⟩

variable {formats : PerLine Format} {c : SidechainCompressor}

/-- The compressor that an operation in place leaves is that of the operation. -/
theorem perform_eq (hc : c.pairing.WellFormed) (op : Op) : perform c op = c.perform op := by
  obtain ⟨r, h, hr⟩ := call_eq hc op
  rw [perform, Call.leaves_of_eq h, hr]

/-- An operation in place leaves a coherent compressor coherent. -/
theorem coherent_perform (hc : c.Coherent formats) (op : Op) : (perform c op).Coherent formats := by
  rw [perform_eq hc.wellFormed]
  exact hc.perform op

/-- A run in place leaves a coherent compressor coherent. -/
theorem coherent_performAll (hc : c.Coherent formats) (ops : List Op) :
    (performAll c ops).Coherent formats := by
  induction ops generalizing c with
  | nil => exact hc
  | cons op ops ih => exact ih (coherent_perform hc op)

/-- A rejected operation leaves the compressor as it is, what waits on the lines included. -/
theorem leaves_of_rejects (hc : c.Coherent formats) {op : Op} (h : Rejects c op) :
    (call op).leaves c = c := by
  rcases h with hstops | ⟨i, x, rfl, hnothing⟩ | ⟨line, f, rfl, hformat, hempty, hpair⟩
  · obtain ⟨r, hr, -⟩ := call_eq hc.wellFormed op
    exact Call.leaves_of_stops hr hstops
  · show { c with engine := Parametric.setParameter c.engine i x } = c
    rw [hc.engine_coherent.setParameter_of_setsNothing hnothing]
  -- an empty frame goes into no slot, so no pair is taken and nothing is written
  · have h := push_eq hc.wellFormed line f
    rw [push_of_isEmpty hformat hempty hpair] at h
    rw [call, Call.leaves_of_eq h]
    rfl

end InPlace

end SidechainCompressor

/-! ### Every state that can be reached -/

/-- Whatever has been done with an engine or a compressor since it was set up: an operation that is
rejected leaves all of it as it was, and the buffer of the host; and inserted into a run, any number
of rejected operations change neither the state at the end nor anything that is answered or can be
read along the others. -/
theorem rejected_of_reachable :
    (∀ s rate e, Engine.ofSettings s rate = .ok e → ∀ ops,
        let d := Engine.InPlace.performAll e ops
        (∀ op, Engine.InPlace.Rejects d op →
          (Engine.InPlace.call op).leaves (d, op.buffer) = (d, op.buffer)) ∧
        ∀ run, MarksRejected Engine.InPlace.perform Engine.InPlace.Rejects d run →
          Engine.InPlace.performAll d (run.map Prod.fst) =
            Engine.InPlace.performAll d (unmarked run) ∧
          unmarked ((Engine.InPlace.observe d (run.map Prod.fst)).zip (run.map Prod.snd)) =
            Engine.InPlace.observe d (unmarked run)) ∧
      (∀ s rate c, Compressor.ofSettings s rate = .ok c → ∀ ops,
        let d := Compressor.InPlace.performAll c ops
        (∀ op, Compressor.InPlace.Rejects d op → (Compressor.InPlace.call op).leaves d = d) ∧
        ∀ run, MarksRejected Compressor.InPlace.perform Compressor.InPlace.Rejects d run →
          Compressor.InPlace.performAll d (run.map Prod.fst) =
            Compressor.InPlace.performAll d (unmarked run) ∧
          unmarked ((Compressor.InPlace.observe d (run.map Prod.fst)).zip (run.map Prod.snd)) =
            Compressor.InPlace.observe d (unmarked run)) ∧
      ∀ s formats c, SidechainCompressor.ofSettings s formats = .ok c → ∀ ops,
        let d := SidechainCompressor.InPlace.performAll c ops
        (∀ op, SidechainCompressor.InPlace.Rejects d op →
          (SidechainCompressor.InPlace.call op).leaves d = d) ∧
        ∀ run,
          MarksRejected SidechainCompressor.InPlace.perform SidechainCompressor.InPlace.Rejects
              d run →
            SidechainCompressor.InPlace.performAll d (run.map Prod.fst) =
              SidechainCompressor.InPlace.performAll d (unmarked run) ∧
            unmarked ((SidechainCompressor.InPlace.observe d (run.map Prod.fst)).zip
                (run.map Prod.snd)) =
              SidechainCompressor.InPlace.observe d (unmarked run) := by
  refine ⟨fun s rate e he ops => ?_, fun s rate c hc ops => ?_, fun s formats c hc ops => ?_⟩
  -- an operation in place leaves a coherent engine, in which a rejected one changes nothing
  · have h : (Engine.InPlace.performAll e ops).Coherent := by
      rw [Engine.InPlace.performAll_eq]
      exact (Engine.coherent_of_ofSettings he).1.performAll ops
    refine ⟨fun op => Engine.InPlace.leaves_of_rejects h, fun run => ?_⟩
    exact observe_unmarked (I := Engine.Coherent) Engine.InPlace.coherent_perform
      Engine.InPlace.perform_of_rejects _ _ h
  · have h : (Compressor.InPlace.performAll c ops).Coherent := by
      rw [Compressor.InPlace.performAll_eq]
      exact (Compressor.coherent_of_ofSettings hc).performAll ops
    refine ⟨fun op => Compressor.InPlace.leaves_of_rejects h, fun run => ?_⟩
    exact observe_unmarked (I := Compressor.Coherent) Compressor.InPlace.coherent_perform
      Compressor.InPlace.leaves_of_rejects _ _ h
  · have h := SidechainCompressor.InPlace.coherent_performAll
      (SidechainCompressor.coherent_of_ofSettings hc) ops
    refine ⟨fun op => SidechainCompressor.InPlace.leaves_of_rejects h, fun run => ?_⟩
    exact observe_unmarked SidechainCompressor.InPlace.coherent_perform
      SidechainCompressor.InPlace.leaves_of_rejects _ _ h

/-- A buffer that is too short and a control that is set to no number; settings that are refused and
a parameter past the last; a frame of another format and an empty one. -/
theorem rejected_of_reachable_default :
    (∃ e, Engine.ofSettings {} 48000 = .ok e ∧
        (Engine.InPlace.call (.processInPlace [⟨1⟩] 1 2)).leaves (e, [⟨1⟩]) = (e, [⟨1⟩]) ∧
        Engine.InPlace.observe e [.processInPlace [⟨1⟩] 1 1, .reset] =
          unmarked ((Engine.InPlace.observe e
              [.setParameter 8 Scalar.nan, .processInPlace [⟨1⟩] 1 1, .process [] 0 [] 1 0,
                .reset]).zip
            [true, false, true, false])) ∧
      (∃ c, Compressor.ofSettings {} 48000 = .ok c ∧
        (Compressor.InPlace.call (.setSettings { mix := 2 })).leaves c = c ∧
        Compressor.InPlace.observe c [.setRate 44100] =
          unmarked ((Compressor.InPlace.observe c [.setRate 44100, .setParameter 9 1]).zip
            [false, true])) ∧
      ∃ c, SidechainCompressor.ofSettings {} ⟨⟨2, 48000⟩, ⟨1, 48000⟩⟩ = .ok c ∧
        (SidechainCompressor.InPlace.call
          (.push .main ⟨1, 48000, [⟨1⟩], by decide, by decide⟩)).leaves c = c ∧
        SidechainCompressor.InPlace.observe c
            [.push .main ⟨2, 48000, [⟨1⟩, ⟨2⟩], by decide, by decide⟩] =
          unmarked ((SidechainCompressor.InPlace.observe c
              [.push .main ⟨2, 48000, [⟨1⟩, ⟨2⟩], by decide, by decide⟩,
                .push .main ⟨2, 48000, [], by decide, by decide⟩]).zip [false, true]) := by
  refine ⟨⟨_, rfl, ?_, ?_⟩, ⟨_, rfl, ?_, ?_⟩, ⟨_, rfl, ?_, ?_⟩⟩
  · exact (rejected_of_reachable.1 {} 48000 _ rfl []).1 (.processInPlace [⟨1⟩] 1 2)
      (.inl ⟨.assertion, _, rfl⟩)
  · exact ((rejected_of_reachable.1 {} 48000 _ rfl []).2
      [(.setParameter 8 Scalar.nan, true), (.processInPlace [⟨1⟩] 1 1, false),
        (.process [] 0 [] 1 0, true), (.reset, false)]
      ⟨fun _ => .inr ⟨_, _, rfl, .inl (by decide)⟩, nofun, fun _ => .inl ⟨.assertion, _, rfl⟩,
        nofun, trivial⟩).2.symm
  -- settings that are refused, and a parameter that there is not
  · exact (rejected_of_reachable.2.1 {} 48000 _ rfl []).1 (.setSettings { mix := 2 })
      (.inl ⟨_, _, rfl⟩)
  · exact ((rejected_of_reachable.2.1 {} 48000 _ rfl []).2
      [(.setRate 44100, false), (.setParameter 9 1, true)]
      ⟨nofun, fun _ => .inr ⟨_, _, rfl, .inr (by decide)⟩, trivial⟩).2.symm
  -- a frame of another format is refused, and an empty one brings nothing
  · exact (rejected_of_reachable.2.2 {} ⟨⟨2, 48000⟩, ⟨1, 48000⟩⟩ _ rfl []).1
      (.push .main ⟨1, 48000, [⟨1⟩], by decide, by decide⟩) (.inl ⟨_, _, rfl⟩)
  · exact ((rejected_of_reachable.2.2 {} ⟨⟨2, 48000⟩, ⟨1, 48000⟩⟩ _ rfl []).2
      [(.push .main ⟨2, 48000, [⟨1⟩, ⟨2⟩], by decide, by decide⟩, false),
        (.push .main ⟨2, 48000, [], by decide, by decide⟩, true)]
      ⟨nofun, fun _ => .inr (.inr ⟨_, _, rfl, rfl, rfl, rfl⟩), trivial⟩).2.symm

end DynamicRange
