import DynamicRange.Groups

/-!
# Groups of a list

`groups k n xs` cuts `n` groups of `k` elements off the front of `xs`. Cutting `m + n` groups is
cutting `m` groups and then `n` more of what is left, and only the first `n * k` elements matter.
-/

namespace DynamicRange

variable {α : Type}

/-- As many groups are cut as are asked for. -/
@[simp] theorem length_groups (k n : Nat) (xs : List α) : (groups k n xs).length = n := by
  induction n generalizing xs with
  | zero => rfl
  | succ n ih => simp [ih]

/-- A list that is long enough gives whole groups. -/
theorem length_of_mem_groups {k n : Nat} {xs : List α} (h : n * k ≤ xs.length) {g : List α}
    (hg : g ∈ groups k n xs) : g.length = k := by
  induction n generalizing xs with
  | zero => simp at hg
  | succ n ih =>
    rw [Nat.succ_mul] at h
    rw [groups_succ, List.mem_cons] at hg
    rcases hg with rfl | hg
    · rw [List.length_take]
      omega
    · refine ih ?_ hg
      rw [List.length_drop]
      omega

/-- No group is longer than asked for. -/
theorem length_le_of_mem_groups {k n : Nat} {xs g : List α} (hg : g ∈ groups k n xs) :
    g.length ≤ k := by
  induction n generalizing xs with
  | zero => simp at hg
  | succ n ih =>
    rw [groups_succ, List.mem_cons] at hg
    rcases hg with rfl | hg
    · exact List.length_take_le ..
    · exact ih hg

/-- Cutting groups in two goes: the second goes on where the first has stopped. -/
theorem groups_add (k m n : Nat) (xs : List α) :
    groups k (m + n) xs = groups k m xs ++ groups k n (xs.drop (m * k)) := by
  induction m generalizing xs with
  | zero => simp
  | succ m ih =>
    -- what follows `m` groups after the first one is what follows `m + 1` groups
    have hdrop : (xs.drop k).drop (m * k) = xs.drop ((m + 1) * k) := by
      rw [List.drop_drop, Nat.succ_mul, Nat.add_comm]
    rw [Nat.add_right_comm, groups_succ, groups_succ, ih, hdrop, List.cons_append]

/-- The groups together are the elements cut off. -/
theorem flatten_groups (k n : Nat) (xs : List α) :
    (groups k n xs).flatten = xs.take (n * k) := by
  induction n generalizing xs with
  | zero => simp
  | succ n ih =>
    rw [groups_succ, List.flatten_cons, ih, Nat.succ_mul, Nat.add_comm, List.take_add]

/-- The groups of a mapped list are the mapped groups. -/
theorem groups_map {β : Type} (f : α → β) (k n : Nat) (xs : List α) :
    groups k n (xs.map f) = (groups k n xs).map (List.map f) := by
  induction n generalizing xs with
  | zero => rfl
  | succ n ih =>
    rw [groups_succ, groups_succ, List.map_cons, ← List.map_take, ← List.map_drop, ih]

/-- Elements past the groups do not matter. -/
theorem groups_append {k n : Nat} {xs : List α} (h : n * k ≤ xs.length) (ys : List α) :
    groups k n (xs ++ ys) = groups k n xs := by
  induction n generalizing xs with
  | zero => rfl
  | succ n ih =>
    rw [Nat.succ_mul] at h
    have hrest : n * k ≤ (xs.drop k).length := by
      rw [List.length_drop]; omega
    rw [groups_succ, groups_succ, List.take_append_of_le_length (by omega),
      List.drop_append_of_le_length (by omega), ih hrest]

/-- The groups of the elements that are cut off anyway. -/
theorem groups_take (k n : Nat) (xs : List α) : groups k n (xs.take (n * k)) = groups k n xs := by
  by_cases h : n * k ≤ xs.length
  · have hlen : n * k ≤ (xs.take (n * k)).length := by
      rw [List.length_take]; omega
    rw [← groups_append hlen (xs.drop (n * k)), List.take_append_drop]
  · rw [List.take_of_length_le (by omega)]

/-- Pieces of one length that have been put together are the groups of the whole. -/
theorem groups_flatMap {β : Type} {k : Nat} {f : β → List α} {xs : List β}
    (h : ∀ x ∈ xs, (f x).length = k) : groups k xs.length (xs.flatMap f) = xs.map f := by
  induction xs with
  | nil => rfl
  | cons x xs ih =>
    obtain ⟨hx, hxs⟩ := List.forall_mem_cons.mp h
    rw [List.length_cons, List.flatMap_cons, groups_succ, ← hx, List.take_left, List.drop_left, hx,
      ih hxs, List.map_cons]

end DynamicRange
