import DynamicRange.Files.Tree
import DynamicRange.Proofs.Result

/-!
# Files are read as they are written

A file that is written takes the place of a file or of nothing, never of a folder. So no path that
leads through folders is changed by it, and the path that it was written to leads to it.

## Key results

- `readBytes_of_write`: a file that has been written can be read, and holds what was written
- `exists_write_of_write`: it can be written over
-/

namespace DynamicRange.FileTree

variable {t t' : FileTree} {address : List String} {bytes : List UInt8} {path : String}

/-! ### One node replaced -/

/-- Leaving out one address does not change what any other address has. -/
private theorem lookup_filter_ne {nodes : List (List String × FileNode)} {a b : List String}
    (hne : a ≠ b) : (nodes.filter fun entry => entry.1 != b).lookup a = nodes.lookup a := by
  induction nodes with
  | nil => rfl
  | cons entry nodes ih =>
    obtain ⟨c, node⟩ := entry
    by_cases hc : c = b
    · -- an entry that is left out is not the one looked for
      subst hc
      have hac : (a == c) = false := beq_eq_false_iff_ne.mpr hne
      rw [List.filter_cons_of_neg (by simp), ih, List.lookup_cons, hac]
    · rw [List.filter_cons_of_pos (by simpa using hc), List.lookup_cons, List.lookup_cons, ih]

/-- What is put at one address does not change any other. -/
theorem look_put_of_ne {node : FileNode} {a : List String} (hne : a ≠ address) :
    (t.put address node).look a = t.look a := by
  have hbeq : (a == address) = false := beq_eq_false_iff_ne.mpr hne
  have hnode : (t.put address node).node? a = t.node? a := by
    simp only [node?, put, List.lookup_cons, hbeq, lookup_filter_ne hne]
  simp only [look, hnode]

/-- What is put at an address is found there. -/
theorem look_put_self {node : FileNode} {found : Option FileNode} (hne : address ≠ [])
    (h : t.look address = .ok found) : (t.put address node).look address = .ok (some node) := by
  have hempty : address.isEmpty = false := by simpa using hne
  have hnode : (t.put address node).node? address = some node := by
    simp [node?, put, hempty]
  -- an address that is too long is not looked at, neither before nor after
  unfold look at h ⊢
  split at h
  · exact nomatch h
  next hshort => rw [if_neg hshort, hnode]

/-! ### Ways through folders -/

/-- A file that is not put in the place of a folder blocks no way. By induction on the segments. -/
theorem enter_put (hfile : t.look address ≠ .ok (some .folder)) {here names folder : List String}
    (h : t.enter here names = .ok folder) :
    (t.put address (.file bytes)).enter here names = .ok folder := by
  induction names generalizing here with
  | nil => exact h
  | cons name rest ih =>
    unfold enter at h ⊢
    split at h
    -- a segment that leads nowhere, or up
    next hidle => rw [if_pos hidle, ih h]
    next hidle =>
      split at h
      next hup => rw [if_neg hidle, if_pos hup, ih h]
      next hup =>
        split at h
        -- a name: it has to be that of a folder, so it is not the one replaced
        next hfolder =>
          have hne : here ++ [name] ≠ address := by
            rintro rfl
            exact hfile hfolder
          rw [if_neg hidle, if_neg hup, look_put_of_ne hne, hfolder]
          exact ih h
        all_goals exact nomatch h

/-- A path that leads to a target still leads there when a file has been put. -/
theorem target_put (hfile : t.look address ≠ .ok (some .folder)) {r : Route} {target : Target}
    (h : t.target r = .ok target) : (t.put address (.file bytes)).target r = .ok target := by
  unfold FileTree.target at h ⊢
  split at h
  · exact h
  -- the folders on the way are still there, as none has been replaced
  · obtain ⟨folder, hfolder, h⟩ := Result.bind_eq_ok_iff.mp h
    exact Result.bind_eq_ok_iff.mpr ⟨folder, enter_put hfile hfolder, h⟩

/-- A name has an address below the root. -/
theorem ne_nil_of_target {r : Route} {isSlashed : Bool}
    -- the address ends in a name, which is put after that of its folder
    (h : t.target r = .ok (.name address isSlashed)) : address ≠ [] := by
  unfold FileTree.target at h
  split at h
  · exact nomatch h
  · obtain ⟨folder, -, h⟩ := Result.bind_eq_ok_iff.mp h
    split at h
    · exact nomatch h
    · injection h with h
      injection h with h
      rw [← h]
      exact List.append_ne_nil_of_right_ne_nil _ (List.cons_ne_nil _ _)

/-! ### Writing -/

/-- What writing does: the path leads to a name that no folder has, and a file is put there. -/
theorem eq_of_write (h : t.write path bytes = .ok t') :
    ∃ r address found, t.route path = .ok r ∧ t.target r = .ok (.name address false) ∧
      t.look address = .ok found ∧ found ≠ some .folder ∧ t' = t.put address (.file bytes) := by
  obtain ⟨r, hroute, h⟩ := Result.bind_eq_ok_iff.mp h
  obtain ⟨target, htarget, h⟩ := Result.bind_eq_ok_iff.mp h
  split at h
  · exact nomatch h
  · exact nomatch h
  next address =>
    obtain ⟨found, hfound, h⟩ := Result.bind_eq_ok_iff.mp h
    -- only a file or nothing may be replaced
    refine ⟨r, address, found, hroute, htarget, hfound, ?_⟩
    split at h
    · exact nomatch h
    · exact ⟨nofun, (Except.ok.inj h).symm⟩
    · exact ⟨nofun, (Except.ok.inj h).symm⟩

/-- After writing, the path leads to the file. -/
theorem leads_of_write (h : t.write path bytes = .ok t') :
    ∃ r address, t'.route path = .ok r ∧ t'.target r = .ok (.name address false) ∧
      t'.look address = .ok (some (.file bytes)) := by
  obtain ⟨r, address, found, hroute, htarget, hfound, hne, rfl⟩ := eq_of_write h
  have hfile : t.look address ≠ .ok (some .folder) := by
    rw [hfound]
    exact fun heq => hne (Except.ok.inj heq)
  exact ⟨r, address, hroute, target_put hfile htarget,
    look_put_self (ne_nil_of_target htarget) hfound⟩

/-- A file that has been written can be read. -/
theorem readBytes_of_write (h : t.write path bytes = .ok t') : t'.readBytes path = .ok bytes := by
  obtain ⟨r, address, hroute, htarget, hlook⟩ := leads_of_write h
  -- the path leads to the same address, where the file is now
  have hnode : t'.nodeAt r = .ok (.file bytes) :=
    Result.bind_eq_ok_iff.mpr ⟨_, htarget, Result.bind_eq_ok_iff.mpr ⟨_, hlook, rfl⟩⟩
  have hfind : t'.find path = .ok (.file bytes) :=
    Result.bind_eq_ok_iff.mpr ⟨r, hroute, hnode⟩
  exact Result.bind_eq_ok_iff.mpr ⟨_, hfind, rfl⟩

/-- A file that has been written can be written over. -/
theorem exists_write_of_write (h : t.write path bytes = .ok t') (bytes' : List UInt8) :
    ∃ t'', t'.write path bytes' = .ok t'' := by
  obtain ⟨r, address, hroute, htarget, hlook⟩ := leads_of_write h
  refine ⟨t'.put address (.file bytes'), Result.bind_eq_ok_iff.mpr ⟨r, hroute, ?_⟩⟩
  refine Result.bind_eq_ok_iff.mpr ⟨_, htarget, ?_⟩
  exact Result.bind_eq_ok_iff.mpr ⟨_, hlook, rfl⟩

/-! ### A folder with a document -/

/-- A working folder with one document. -/
def ofDocument (document : String) : FileTree where
  home := []
  nodes := [(["p.toml"], .file document.toUTF8.toList)]

/-- The document is found in its folder. -/
theorem find_ofDocument (document : String) :
    (ofDocument document).find "p.toml" = .ok (.file document.toUTF8.toList) := by
  have hnull : "p.toml".contains '\x00' = false := by
    rw [String.contains_char_eq]
    decide
  have hslash : "p.toml".startsWith "/" = false := by decide +kernel
  unfold find route
  rw [hnull, hslash]
  rfl

end DynamicRange.FileTree
