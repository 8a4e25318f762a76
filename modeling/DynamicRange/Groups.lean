/-!
# Groups

Cuts a list into groups of equal size.
-/

namespace DynamicRange

variable {α : Type}

/-- The first `n` groups of `k` elements of a list, after those already found, last one first. -/
def groupsOnto (found : List (List α)) (k : Nat) : Nat → List α → List (List α)
  | 0, _ => found.reverse
  | n + 1, xs => groupsOnto (xs.take k :: found) k n (xs.drop k)

/-- The first `n` groups of `k` elements of a list. Elements lack at the end if the list is too
short. -/
def groups (k n : Nat) (xs : List α) : List (List α) := groupsOnto [] k n xs

/-- What has been found stands before the groups that are still to be cut. -/
theorem groupsOnto_eq (found : List (List α)) (k n : Nat) (xs : List α) :
    groupsOnto found k n xs = found.reverse ++ groups k n xs := by
  unfold groups
  induction n generalizing found xs with
  | zero => simp [groupsOnto]
  | succ n ih =>
    rw [groupsOnto, groupsOnto, ih (_ :: found), ih [_]]
    simp

/-- No group is cut of any list. -/
@[simp]
theorem groups_zero (k : Nat) (xs : List α) : groups k 0 xs = [] := rfl

/-- The first group is cut off, and the others are those of the rest. -/
@[simp]
theorem groups_succ (k n : Nat) (xs : List α) :
    groups k (n + 1) xs = xs.take k :: groups k n (xs.drop k) := by
  rw [groups, groupsOnto, groupsOnto_eq]
  rfl

end DynamicRange
