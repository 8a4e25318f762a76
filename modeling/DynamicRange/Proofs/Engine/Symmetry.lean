import DynamicRange.Proofs.Engine.Causality
import DynamicRange.Proofs.Engine.Level
import DynamicRange.Proofs.Peak

/-!
# Symmetries of the engine

The engine reads only magnitudes off its detector, so the signs of detector samples do not matter;
in a signal that is its own detector they pass through to the output. Of the largest magnitude it
does not matter which channel has it, so with `maximum` channels that change places in a signal
change places in the output.

## Main definitions

* `Sample.negated`, `Sample.Agrees`: the negative of a sample, and samples that agree but for NaNs
* `rearrange`, `onSamples`: channels in another order, and an operation on each of the first samples

## Key results

- `Engine.run_eq_of_input`: all that the engine reads of a detector
- `Sample.agrees_scale_negated`: the negative of a sample, multiplied
- `Engine.process_onSamples`: an operation on samples that passes through
- `Engine.process_symmetries`: the three together
-/

namespace DynamicRange

open Binary

/-! ### Negative samples -/

namespace Sample

/-- The sample with the other sign. -/
def negated (s : Sample) : Sample := ⟨s.bits ^^^ 0x80000000⟩

/-- Whether two samples are the same bit for bit, or both NaNs. -/
def Agrees (s t : Sample) : Prop := s = t ∨ s.value.isNaN = true ∧ t.value.isNaN = true

variable (s : Sample)

/-- The value of a sample with the other sign is the opposite value. -/
theorem value_negated : s.negated.value = -s.value := ofBits_xor_sign s.bits

/-- The sign does not matter for being a NaN. -/
theorem isNaN_value_negated : s.negated.value.isNaN = s.value.isNaN := by
  rw [value_negated, isNaN_neg]

/-- The opposite of a number is stored with the other sign bit. -/
theorem ofValue_neg {x : Float32} (hx : x.isNaN = false) : ofValue (-x) = (ofValue x).negated := by
  rw [ofValue, toBits_neg hx]
  rfl

/-- The bit that marks a NaN as quiet is not the sign. -/
private theorem xor_sign_or_quiet (b : UInt32) :
    b ^^^ 0x80000000 ||| 0x00400000 = (b ||| 0x00400000) ^^^ 0x80000000 := by
  -- no bit is set in both of the words
  have hbits : ∀ i : Fin 32, (0x80000000#32)[i] = false ∨ (0x00400000#32)[i] = false := by decide
  apply UInt32.toBitVec_inj.mp
  ext i hi
  simp only [UInt32.toBitVec_or, UInt32.toBitVec_xor, UInt32.toBitVec_ofNat, BitVec.getElem_or,
    BitVec.getElem_xor]
  rcases hbits ⟨i, hi⟩ with h | h <;> rw [Fin.getElem_fin] at h
  · rw [h, Bool.xor_false, Bool.xor_false]
  · rw [h, Bool.or_false, Bool.or_false]

/-- The negative of a sample, multiplied, is the negative of the product. -/
theorem agrees_scale_negated (factor : Float32) :
    (s.negated.scale factor).Agrees (s.scale factor).negated := by
  rw [scale, scale, isNaN_value_negated]
  -- a NaN is kept with its sign and marked as quiet
  split
  next => exact .inl (congrArg Sample.mk (xor_sign_or_quiet s.bits))
  next =>
    dsimp only
    rw [value_negated, neg_mul_eq, isNaN_neg]
    -- a product that is a NaN is stored as the indefinite one, whatever the signs
    cases hproduct : (s.value * factor).isNaN with
    | true =>
      have hindefinite : indefinite.value.isNaN = true := rfl
      refine .inr ⟨hindefinite, ?_⟩
      rw [isNaN_value_negated]
      exact hindefinite
    | false => exact .inl (ofValue_neg hproduct)

end Sample

/-! ### What the engine reads of a detector -/

/-- Channels are combined by their magnitudes. -/
theorem LinkMode.combine_map_abs (mode : LinkMode) (xs : List Float32) :
    mode.combine (xs.map Float32.abs) = mode.combine xs := by
  -- both modes take the magnitude of each channel, and the magnitude of that is the same
  cases mode with
  | average =>
    rw [combine, combine, List.foldl_map, List.length_map]
    simp only [abs_abs_eq]
  | maximum =>
    rw [combine, combine, List.foldl_map]
    simp only [abs_abs_eq]

namespace Engine

variable {e : Engine}

/-- A step reads only the input of the detector sample. -/
theorem step_eq_of_input {d d' : List Sample} (h : e.input d = e.input d') :
    e.step d = e.step d' := by
  -- the step, written in terms of the input
  have hstep (d : List Sample) : e.step d =
      (e.blend (e.gainAt (e.envelope.process (e.input d)).reading),
        { e with
          envelope := e.envelope.process (e.input d)
          lastGain := e.gainAt (e.envelope.process (e.input d)).reading }) := rfl
  rw [hstep, hstep, h]

/-- Detectors of the same inputs have the same factors and lead to the same state. -/
theorem run_eq_of_input {ds ds' : List (List Sample)} (h : ds.map e.input = ds'.map e.input) :
    e.factors ds = e.factors ds' ∧ e.after ds = e.after ds' := by
  induction ds generalizing e ds' with
  | nil =>
    obtain rfl : ds' = [] := List.map_eq_nil_iff.mp h.symm
    exact ⟨rfl, rfl⟩
  | cons d ds ih =>
    obtain ⟨d', ds', rfl, hd, hds⟩ := List.map_eq_cons_iff.mp h.symm
    -- the settings stay, so what is read of the rest is the same
    have hinput : (e.step d).2.input = e.input := rfl
    obtain ⟨hfactors, hafter⟩ := ih (e := (e.step d).2) (hinput ▸ hds.symm)
    rw [factors, factors, after_cons, after_cons, hfactors, hafter, step_eq_of_input hd]
    exact ⟨rfl, rfl⟩

/-- So they do the same to every main signal. -/
theorem process_eq_of_input {detector detector' : List Sample} {dc n : Nat}
    (h : (groups dc n detector).map e.input = (groups dc n detector').map e.input)
    (main : List Sample) (mc : Nat) :
    e.process main mc detector dc n = e.process main mc detector' dc n := by
  obtain ⟨hfactors, hafter⟩ := run_eq_of_input h
  rw [process_eq, process_eq, output, output, hfactors, hafter]

/-- The engine reads magnitudes. -/
theorem input_eq (e : Engine) (d : List Sample) : e.input d =
    detectorInput e.settings.link e.settings.detection (d.map (·.value.abs)) := by
  have hcombine := e.settings.link.combine_map_abs (d.map Sample.value)
  rw [List.map_map] at hcombine
  rw [input, detectorInput, ← hcombine]
  rfl

/-- Detectors of the same magnitudes have the same inputs. -/
theorem map_input_groups_congr {xs ys : List Sample}
    (h : xs.map (·.value.abs) = ys.map (·.value.abs)) (e : Engine) (k n : Nat) :
    (groups k n xs).map e.input = (groups k n ys).map e.input := by
  have hgroups (zs : List Sample) : (groups k n zs).map e.input =
      (groups k n (zs.map (·.value.abs))).map
        (detectorInput e.settings.link e.settings.detection) := by
    rw [groups_map, List.map_map]
    exact List.map_congr_left fun d _ => e.input_eq d
  rw [hgroups, hgroups, h]

/-- Of the largest magnitude the engine does not read which channel has it. -/
theorem input_eq_of_perm (he : e.settings.link = .maximum) {d d' : List Sample} (h : d.Perm d') :
    e.input d = e.input d' := by
  -- the largest magnitude is the same in every order of the channels
  have hpeak : LinkMode.maximum.combine (d.map Sample.value) =
      LinkMode.maximum.combine (d'.map Sample.value) :=
    Levels.peakOf_perm (h.map Sample.value)
  rw [input, input, detectorInput, detectorInput, he, hpeak]

end Engine

/-! ### Operations on samples -/

/-- A list with its elements in another order, which tells where each of them is taken from. -/
def rearrange {α : Type} (order : List Nat) (xs : List α) : List α := order.filterMap (xs[·]?)

section Rearrange

variable {α β : Type} {order : List Nat}

/-- Rearranging goes along with a function of the elements. -/
theorem rearrange_map (order : List Nat) (f : α → β) (xs : List α) :
    rearrange order (xs.map f) = (rearrange order xs).map f := by
  simp only [rearrange, List.getElem?_map, List.map_filterMap]

/-- In the order of the places, a list is itself. -/
private theorem rearrange_range (xs : List α) : rearrange (List.range xs.length) xs = xs := by
  induction xs with
  | nil => rfl
  | cons x xs ih =>
    have hfirst : (x :: xs)[0]? = some x := rfl
    -- the first place has the first element, and the others are those of the rest
    rw [rearrange, List.length_cons, List.range_succ_eq_map, List.filterMap_cons_some hfirst,
      List.filterMap_map]
    exact congrArg (x :: ·) ih

/-- An order of all places loses nothing. -/
theorem rearrange_perm {xs : List α} (h : order.Perm (List.range xs.length)) :
    (rearrange order xs).Perm xs := by
  have hperm := h.filterMap (xs[·]?)
  rwa [← rearrange, ← rearrange, rearrange_range] at hperm

example : rearrange [2, 0, 1] ["left", "right", "center"] = ["center", "left", "right"] := rfl

end Rearrange

/-- A buffer with an operation made on its first `n` samples. -/
def onSamples (g : List Sample → List Sample) (k n : Nat) (xs : List Sample) : List Sample :=
  (groups k n xs).flatMap g ++ xs.drop (n * k)

section OnSamples

variable {g : List Sample → List Sample} {k : Nat}

/-- An operation on `m + n` samples is that on `m`, then that on the `n` behind them. -/
theorem onSamples_add (g : List Sample → List Sample) (k m n : Nat) (xs : List Sample) :
    onSamples g k (m + n) xs = (groups k m xs).flatMap g ++ onSamples g k n (xs.drop (m * k)) := by
  rw [onSamples, onSamples, groups_add, List.flatMap_append, List.append_assoc, List.drop_drop,
    Nat.add_mul]

variable (hg : ∀ s, s.length = k → (g s).length = k)
include hg

/-- An operation that keeps the channels of each sample keeps the length of the span. -/
private theorem length_flatMap_groups {n : Nat} {xs : List Sample} (h : n * k ≤ xs.length) :
    ((groups k n xs).flatMap g).length = n * k := by
  have hlengths : (groups k n xs).map (fun s => (g s).length) = (groups k n xs).map fun _ => k :=
    List.map_congr_left fun s hs => hg s (length_of_mem_groups h hs)
  rw [List.length_flatMap, hlengths, List.map_const', List.sum_replicate, length_groups,
    smul_eq_mul]

/-- The buffer still has all the samples of the span. -/
theorem le_length_onSamples {n m : Nat} {xs : List Sample} (h : n * k ≤ xs.length) (hnm : n ≤ m) :
    n * k ≤ (onSamples g k m xs).length := by
  obtain ⟨j, rfl⟩ := Nat.exists_eq_add_of_le hnm
  rw [onSamples_add, List.length_append, length_flatMap_groups hg h]
  exact Nat.le_add_right ..

/-- Cut at the stride, the buffer has the samples that the operation was made on. -/
theorem groups_onSamples {n : Nat} {xs : List Sample} (h : n * k ≤ xs.length) (m : Nat) :
    groups k n (onSamples g k (n + m) xs) = (groups k n xs).map g := by
  -- each sample keeps its channels, so cutting finds it again
  have hgroups : groups k (groups k n xs).length ((groups k n xs).flatMap g) =
      (groups k n xs).map g := groups_flatMap fun s hs => hg s (length_of_mem_groups h hs)
  rw [length_groups] at hgroups
  rw [onSamples_add, groups_append (length_flatMap_groups hg h).ge, hgroups]

/-- Behind the first `n` samples the operation goes on with the next `m`. -/
theorem drop_onSamples {n : Nat} {xs : List Sample} (h : n * k ≤ xs.length) (m : Nat) :
    (onSamples g k (n + m) xs).drop (n * k) = onSamples g k m (xs.drop (n * k)) := by
  rw [onSamples_add]
  exact List.drop_left' (length_flatMap_groups hg h)

end OnSamples

namespace Engine

section OnSamples

variable {g : List Sample → List Sample} {mc n : Nat} {main : List Sample}

/-- A run leaves what lies behind the span. -/
theorem drop_process (hmain : n * mc ≤ main.length) (e : Engine) (detector : List Sample)
    (dc : Nat) : (e.process main mc detector dc n).1.drop (n * mc) = main.drop (n * mc) := by
  rw [process_eq]
  exact List.drop_left' (length_output hmain e detector dc)

variable (hg : ∀ s, s.length = mc → (g s).length = mc)
  (hscale : ∀ factor s, scale factor (g s) = g (scale factor s)) (hmain : n * mc ≤ main.length)
include hg hscale hmain

/-- The output of the changed main signal has the changed samples of the output. -/
private theorem groups_process_onSamples (k : Nat) (e : Engine) (detector : List Sample)
    (dc : Nat) :
    groups mc n (e.process (onSamples g mc (n + k) main) mc detector dc n).1 =
      (groups mc n (e.process main mc detector dc n).1).map g := by
  have hlength := le_length_onSamples hg hmain (Nat.le_add_right n k)
  have hsamples := groups_onSamples hg hmain k
  -- the factors are the same on both sides, so it is enough to compare sample by sample
  rw [groups_eq_map_sampleAt, groups_eq_map_sampleAt, List.map_map, List.map_inj_left] at hsamples
  rw [groups_process hlength, groups_process hmain, List.map_map]
  refine List.map_congr_left fun i hi => ?_
  rw [hsamples i hi]
  exact hscale _ _

/-- An operation on samples that goes along with their multiplication passes through: made on the
main signal before it is compressed, or on the output, it gives the same. -/
theorem process_onSamples {m : Nat} (hnm : n ≤ m) (e : Engine) (detector : List Sample) (dc : Nat) :
    e.process (onSamples g mc m main) mc detector dc n =
      (onSamples g mc m (e.process main mc detector dc n).1,
        (e.process main mc detector dc n).2) := by
  obtain ⟨k, rfl⟩ := Nat.exists_eq_add_of_le hnm
  have hlength := le_length_onSamples hg hmain (Nat.le_add_right n k)
  -- the state depends on the detector only; the samples are cut where the span ends
  have hstate : (e.process (onSamples g mc (n + k) main) mc detector dc n).2 =
      (e.process main mc detector dc n).2 := by rw [process_eq, process_eq]
  refine Prod.ext ?_ hstate
  calc (e.process (onSamples g mc (n + k) main) mc detector dc n).1
      = (groups mc n (e.process (onSamples g mc (n + k) main) mc detector dc n).1).flatten ++
          (onSamples g mc (n + k) main).drop (n * mc) := by
        rw [flatten_groups, ← drop_process hlength e detector dc, List.take_append_drop]
    _ = (groups mc n (e.process main mc detector dc n).1).flatMap g ++
          onSamples g mc k ((e.process main mc detector dc n).1.drop (n * mc)) := by
        rw [groups_process_onSamples hg hscale hmain, drop_onSamples hg hmain,
          drop_process hmain, List.flatMap_def]
    _ = onSamples g mc (n + k) (e.process main mc detector dc n).1 := (onSamples_add ..).symm

end OnSamples

/-! ### Negative signals -/

/-- Groups with all signs flipped, each beside its factor, come out with all signs flipped. -/
private theorem forall₂_zipWith_negated (factors : List Float32) (gs : List (List Sample)) :
    List.Forall₂ Sample.Agrees
      (List.zipWith scale factors (gs.map (List.map Sample.negated))).flatten
      ((List.zipWith scale factors gs).flatten.map Sample.negated) := by
  -- on the samples, each beside its factor; the shorter list ends the output
  induction gs generalizing factors with
  | nil => simp
  | cons g gs ih =>
    cases factors with
    | nil => simp
    | cons factor factors =>
      rw [List.map_cons, List.zipWith_cons_cons, List.zipWith_cons_cons, List.flatten_cons,
        List.flatten_cons, List.map_append]
      refine List.rel_append ?_ (ih factors)
      -- within a sample every channel is multiplied by the same factor
      rw [scale, scale, List.map_map, List.map_map, List.forall₂_map_left_iff,
        List.forall₂_map_right_iff, List.forall₂_same]
      exact fun s _ => s.agrees_scale_negated factor

/-- A signal with all signs flipped comes out with all signs flipped. -/
theorem processInPlace_negated (e : Engine) (signal : List Sample) (channels n : Nat) :
    List.Forall₂ Sample.Agrees
        (e.processInPlace (signal.map Sample.negated) channels n).1
        ((e.processInPlace signal channels n).1.map Sample.negated) ∧
      (e.processInPlace (signal.map Sample.negated) channels n).2 =
        (e.processInPlace signal channels n).2 := by
  -- the magnitudes are the same, so that the factors are the same and the state is
  have habs : (signal.map Sample.negated).map (·.value.abs) = signal.map (·.value.abs) := by
    rw [List.map_map]
    refine List.map_congr_left fun s _ => ?_
    rw [Function.comp_apply, s.value_negated, neg_abs]
  obtain ⟨hfactors, hafter⟩ := run_eq_of_input (map_input_groups_congr habs e channels n)
  rw [processInPlace_eq_process, processInPlace_eq_process, process_eq, process_eq]
  refine ⟨?_, hafter⟩
  -- behind the span nothing is multiplied
  rw [List.map_append, output, output, hfactors, groups_map, ← List.map_drop]
  refine List.rel_append (forall₂_zipWith_negated _ _) ?_
  rw [List.forall₂_same]
  exact fun s _ => .inl rfl

/-! ### Permuted channels -/

section Permuted

variable {e : Engine} {order : List Nat} {k : Nat}

/-- An order of `k` places keeps `k` channels. -/
private theorem length_rearrange (h : order.Perm (List.range k)) (s : List Sample)
    (hs : s.length = k) : (rearrange order s).length = k :=
  (rearrange_perm (hs.symm ▸ h)).length_eq.trans hs

/-- Every channel is multiplied by the same factor, so their order does not matter. -/
private theorem scale_rearrange (factor : Float32) (s : List Sample) :
    scale factor (rearrange order s) = rearrange order (scale factor s) :=
  (rearrange_map order (Sample.scale factor) s).symm

/-- With `maximum` a detector is read alike in every order of its channels. -/
theorem map_input_groups_rearrange (he : e.settings.link = .maximum)
    (h : order.Perm (List.range k)) {n m : Nat} (hnm : n ≤ m) {detector : List Sample}
    (hdetector : n * k ≤ detector.length) :
    (groups k n (onSamples (rearrange order) k m detector)).map e.input =
      (groups k n detector).map e.input := by
  obtain ⟨j, rfl⟩ := Nat.exists_eq_add_of_le hnm
  rw [groups_onSamples (length_rearrange h) hdetector, List.map_map]
  refine List.map_congr_left fun s hs => input_eq_of_perm he (rearrange_perm ?_)
  rwa [length_of_mem_groups hdetector hs]

/-- With `maximum` the channels of a detector can change places, and those of the main signal change
places in the output. -/
theorem process_rearrange (he : e.settings.link = .maximum) {main detector : List Sample}
    {mc dc n m m' : Nat} {order' : List Nat} (horder : order.Perm (List.range mc))
    (horder' : order'.Perm (List.range dc)) (hnm : n ≤ m) (hnm' : n ≤ m')
    (hmain : n * mc ≤ main.length) (hdetector : n * dc ≤ detector.length) :
    e.process (onSamples (rearrange order) mc m main) mc
        (onSamples (rearrange order') dc m' detector) dc n =
      (onSamples (rearrange order) mc m (e.process main mc detector dc n).1,
        (e.process main mc detector dc n).2) := by
  have hinputs := map_input_groups_rearrange he horder' hnm' hdetector
  -- the main signal passes through in its order, and the detector is read alike in any order
  rw [process_onSamples (length_rearrange horder) scale_rearrange hmain hnm,
    process_eq_of_input hinputs]

end Permuted

/-! ### The three together -/

/-- A signal with other signs has the same magnitudes. -/
private theorem map_abs_eq_of_signs {xs ys : List Sample}
    (h : List.Forall₂ (fun s t => t = s ∨ t = s.negated) xs ys) :
    ys.map (·.value.abs) = xs.map (·.value.abs) := by
  induction h with
  | nil => rfl
  | @cons s t xs ys hst _ ih =>
    have habs : t.value.abs = s.value.abs := by
      rcases hst with rfl | rfl
      · rfl
      · rw [s.value_negated, neg_abs]
    rw [List.map_cons, List.map_cons, habs, ih]

/-- Whatever the state of an engine, and for a signal with channels and enough samples. Beside it as
a detector: with other signs the factors are the same, and calls have the same output and end in
the same state. By itself: with all signs flipped the output has all signs flipped, but for the bits
of NaNs, and the state is the same. With `maximum`: where the channels change places, in the first
`n` samples or in more, they do so in the output, and the state is the same; and the channels of a
main signal and of its detector can change places apart from each other. -/
theorem process_symmetries (e : Engine) {signal : List Sample} {channels n : Nat}
    (hchannels : 0 < channels) (hlength : n * channels ≤ signal.length) :
    (∀ signal', List.Forall₂ (fun s t => t = s ∨ t = s.negated) signal signal' →
      e.factors (groups channels n signal') = e.factors (groups channels n signal) ∧
      ∀ main mc, 0 < mc → n * mc ≤ main.length → ∃ out e',
        e.process? main mc signal channels n = some (out, e') ∧
        e.process? main mc signal' channels n = some (out, e')) ∧
    (∃ out out' e', e.processInPlace? signal channels n = some (out, e') ∧
      e.processInPlace? (signal.map Sample.negated) channels n = some (out', e') ∧
      List.Forall₂ Sample.Agrees out' (out.map Sample.negated)) ∧
    (e.settings.link = .maximum → ∀ order : List Nat, order.Perm (List.range channels) →
      ∀ m, n ≤ m →
        (∃ out e', e.processInPlace? signal channels n = some (out, e') ∧
          e.processInPlace? (onSamples (rearrange order) channels m signal) channels n =
            some (onSamples (rearrange order) channels m out, e')) ∧
        ∀ main mc order' m', 0 < mc → n * mc ≤ main.length →
          order'.Perm (List.range mc) → n ≤ m' →
          ∃ out e', e.process? main mc signal channels n = some (out, e') ∧
            e.process? (onSamples (rearrange order') mc m' main) mc
                (onSamples (rearrange order) channels m signal) channels n =
              some (onSamples (rearrange order') mc m' out, e')) := by
  have hinPlace (xs : List Sample) (hxs : n * channels ≤ xs.length) :
      e.processInPlace? xs channels n = some (e.processInPlace xs channels n) :=
    if_pos ⟨hchannels, hxs⟩
  have hbeside {main : List Sample} {mc : Nat} {xs : List Sample} (hmc : 0 < mc)
      (hmain : n * mc ≤ main.length) (hxs : n * channels ≤ xs.length) :
      e.process? main mc xs channels n = some (e.process main mc xs channels n) :=
    if_pos ⟨hmc, hchannels, hmain, hxs⟩
  refine ⟨fun signal' hsigns => ?_, ?_, fun he order horder m hnm => ?_⟩
  -- other signs in the detector leave its inputs the same
  · have hinputs := map_input_groups_congr (map_abs_eq_of_signs hsigns) e channels n
    refine ⟨(run_eq_of_input hinputs).1, fun main mc hmc hmain =>
      ⟨(e.process main mc signal channels n).1, (e.process main mc signal channels n).2,
        hbeside hmc hmain hlength, ?_⟩⟩
    rw [hbeside hmc hmain (hsigns.length_eq ▸ hlength), process_eq_of_input hinputs]
  -- all signs flipped in place
  · obtain ⟨hsamples, hstate⟩ := e.processInPlace_negated signal channels n
    have hnegated := hinPlace (signal.map Sample.negated) (by rwa [List.length_map])
    exact ⟨_, _, _, hinPlace signal hlength, hnegated.trans (congrArg some (Prod.ext rfl hstate)),
      hsamples⟩
  -- the channels in another order, in place and beside a main signal
  · have hrearranged := le_length_onSamples (length_rearrange horder) hlength hnm
    refine ⟨⟨(e.processInPlace signal channels n).1, (e.processInPlace signal channels n).2,
      hinPlace signal hlength, ?_⟩, fun main mc order' m' hmc hmain horder' hnm' =>
      ⟨(e.process main mc signal channels n).1, (e.process main mc signal channels n).2,
        hbeside hmc hmain hlength, ?_⟩⟩
    · rw [hinPlace _ hrearranged, processInPlace_eq_process, processInPlace_eq_process,
        process_rearrange he horder horder hnm hnm hlength hlength]
    · have hmain' := le_length_onSamples (length_rearrange horder') hmain hnm'
      rw [hbeside hmc hmain' hrearranged,
        process_rearrange he horder' horder hnm' hnm hmain hlength]

/-- Two stereo samples and one more, with one sign flipped, with all, and with the channels of the
two exchanged. -/
theorem process_symmetries_stereo : ∃ e, ofSettings { link := .maximum } 48000 = .ok e ∧
    let signal : List Sample := [⟨0x3f800000⟩, ⟨0xbf000000⟩, ⟨0x3e800000⟩, ⟨0x3f000000⟩, ⟨0⟩]
    e.factors (groups 2 2 [⟨0x3f800000⟩, ⟨0x3f000000⟩, ⟨0x3e800000⟩, ⟨0x3f000000⟩, ⟨0⟩]) =
        e.factors (groups 2 2 signal) ∧
      (∃ out out' e', e.processInPlace? signal 2 2 = some (out, e') ∧
        e.processInPlace?
            [⟨0xbf800000⟩, ⟨0x3f000000⟩, ⟨0xbe800000⟩, ⟨0xbf000000⟩, ⟨0x80000000⟩] 2 2 =
          some (out', e') ∧ List.Forall₂ Sample.Agrees out' (out.map Sample.negated)) ∧
      ∃ out e', e.processInPlace? signal 2 2 = some (out, e') ∧
        e.processInPlace? [⟨0xbf000000⟩, ⟨0x3f800000⟩, ⟨0x3f000000⟩, ⟨0x3e800000⟩, ⟨0⟩] 2 2 =
          some (onSamples (rearrange [1, 0]) 2 2 out, e') := by
  refine ⟨_, rfl, ?_⟩
  have hlength : 2 * 2 ≤
      ([⟨0x3f800000⟩, ⟨0xbf000000⟩, ⟨0x3e800000⟩, ⟨0x3f000000⟩, ⟨0⟩] : List Sample).length := by
    decide
  obtain ⟨hsigns, hnegated, hpermuted⟩ := process_symmetries _ (by decide) hlength
  -- the second sample of the first stereo pair has the other sign
  refine ⟨(hsigns _ ?_).1, hnegated, (hpermuted rfl [1, 0] (by decide) 2 le_rfl).1⟩
  exact .cons (.inl rfl) (.cons (.inr rfl) (.cons (.inl rfl) (.cons (.inl rfl)
    (.cons (.inl rfl) .nil))))

end Engine

end DynamicRange
