import StyleFeed.Fallible
import StyleFeed.Proofs.Mirror

/-!
What programs do to a tree, by path: `Tree.makeDirectory_eq`, `Tree.removal_eq` and `Tree.move_eq` say which edit each
operation comes to that is not refused. In a watched tree they are the steps of `Touch`, and so
`Follows.mirrors_tree` is about them.
-/

namespace StyleFeed

namespace Tree

variable {t t' : Tree} {p src dest : Path}

/-- The path is one of the entry at the route, be there any or not; a link there is not followed. -/
def Names (t : Tree) (p : Path) (r : Route) : Prop :=
  ∃ k n, t.locateEntry p = .ok (k, some n) ∧ k ++ [n] = r

theorem Names.unique {r s : Route} (h : t.Names p r) (h' : t.Names p s) : r = s := by
  obtain ⟨k, n, entry, rfl⟩ := h
  obtain ⟨k', n', entry', rfl⟩ := h'
  rw [entry] at entry'
  cases entry'
  rfl

theorem makeDirectory_eq (h : t.makeDirectory p = .ok t') :
    ∃ r, t.Names p r ∧ t.lookup? r = none ∧ t.put? r .directory = some t' := by
  obtain ⟨⟨k, n?⟩, entry, h⟩ := exists_of_bind_eq_ok h
  cases n? with
  | none => cases h
  | some n =>
    refine ⟨k ++ [n], ⟨k, n, entry, rfl⟩, ?_⟩
    simp only at h
    split at h
    · rename_i made free put
      cases h
      exact ⟨free, put⟩
    · cases h

theorem removeFile_eq (h : t.removeFile p = .ok t') :
    ∃ r e, t.Names p r ∧ t.lookup? r = some e ∧ e ≠ .directory ∧ t.remove r = t' := by
  obtain ⟨⟨k, n?⟩, entry, h⟩ := exists_of_bind_eq_ok h
  cases n? with
  | none => cases h
  | some n =>
    simp only at h
    split at h
    · cases h
    · cases h
    · rename_i e notDirectory here
      split at h
      · cases h
      · cases h
        exact ⟨k ++ [n], e, ⟨k, n, entry, rfl⟩, here, notDirectory, rfl⟩

theorem removeDirectory_eq (h : t.removeDirectory p = .ok t') :
    ∃ r e, t.Names p r ∧ t.lookup? r = some e ∧ (∀ b, e ≠ .file b) ∧ t.remove r = t' := by
  obtain ⟨⟨k, n?⟩, entry, h⟩ := exists_of_bind_eq_ok h
  cases n? with
  | none => cases h
  | some n =>
    simp only at h
    split at h
    · cases h
    · cases h
    · rename_i e notFile here
      cases h
      exact ⟨k ++ [n], e, ⟨k, n, entry, rfl⟩, here, notFile, rfl⟩

/-- What is moved takes the place of its like, or of nothing. -/
theorem move_eq (h : t.move src dest = .ok t') :
    ∃ old new e, t.Names src old ∧ t.Names dest new ∧ t.lookup? old = some e ∧
      (old = new ∧ t = t' ∨ e.Replaces (t.lookup? new) ∧ t.graft? old new = some t') := by
  obtain ⟨⟨k, n?⟩, entry, h⟩ := exists_of_bind_eq_ok h
  obtain ⟨⟨k', n'?⟩, entry', h⟩ := exists_of_bind_eq_ok h
  cases n? with
  | none => cases h
  | some n =>
  cases n'? with
  | none => cases h
  | some n' =>
    simp only at h
    refine ⟨k ++ [n], k' ++ [n'], ?_⟩
    split at h
    · cases h
    · cases h
    · cases h
    · cases h
    · cases h
    · rename_i e here noFile noLink notFile notLink
      refine ⟨e, ⟨k, n, entry, rfl⟩, ⟨k', n', entry', rfl⟩, here, ?_⟩
      split at h
      · cases h
      split at h
      · rename_i same
        cases h
        exact .inl ⟨same, rfl⟩
      split at h
      · rename_i moved grafted
        cases h
        refine .inr ⟨fun old there => ?_, grafted⟩
        cases old with
        | directory =>
          cases e with
          | directory => exact Iff.rfl
          | file b => exact (notFile b there rfl).elim
          | link q => exact (notLink q there rfl).elim
        | file b => exact iff_of_false nofun (noFile b there)
        | link q => exact iff_of_false nofun (noLink q there)
      · cases h

end Tree

/-! ## In a watched tree -/

namespace Touch

variable {root : Root} {top r s : Route} {t t' : Tree} {p src dest : Path}

theorem of_makeDirectory (made : t.makeDirectory p = .ok t') (names : t.Names p (top ++ r)) :
    Touch root top t (.created (root.path.extend r)) t' := by
  obtain ⟨k, named, free, put⟩ := Tree.makeDirectory_eq made
  cases named.unique names
  exact .makeDirectory free put

theorem of_removal (removed : t.removeFile p = .ok t' ∨ t.removeDirectory p = .ok t')
    (names : t.Names p (top ++ r)) (below : r ≠ []) : Touch root top t (.deleted (root.path.extend r)) t' := by
  obtain ⟨k, e, named, here, rfl⟩ : ∃ k e, t.Names p k ∧ t.lookup? k = some e ∧ t.remove k = t' := by
    rcases removed with removed | removed
    · obtain ⟨k, e, named, here, -, rfl⟩ := Tree.removeFile_eq removed
      exact ⟨k, e, named, here, rfl⟩
    · obtain ⟨k, e, named, here, -, rfl⟩ := Tree.removeDirectory_eq removed
      exact ⟨k, e, named, here, rfl⟩
  cases named.unique names
  exact .remove below here

/-- A move to where the entry is already is none. -/
theorem of_move (moved : t.move src dest = .ok t') (names : t.Names src (top ++ r))
    (names' : t.Names dest (top ++ s)) :
    r = s ∧ t = t' ∨ Touch root top t (.moved (root.path.extend r) (root.path.extend s)) t' := by
  obtain ⟨old, new, e, named, named', here, stays | ⟨replaces, grafted⟩⟩ := Tree.move_eq moved
  all_goals
    cases named.unique names
    cases named'.unique names'
  · exact .inl ⟨List.append_cancel_left stays.1, stays.2⟩
  · exact .inr (.rename here replaces grafted)

theorem of_move_out (moved : t.move src dest = .ok t') (names : t.Names src (top ++ r)) (below : r ≠ [])
    (names' : t.Names dest s) (outside : ¬ top <+: s) : Touch root top t (.deleted (root.path.extend r)) t' := by
  obtain ⟨old, new, e, named, named', here, stays | ⟨-, grafted⟩⟩ := Tree.move_eq moved
  all_goals
    cases named.unique names
    cases named'.unique names'
  · exact absurd ⟨r, stays.1⟩ outside
  · exact .moveOut below here outside grafted

theorem of_move_in (moved : t.move src dest = .ok t') (names : t.Names src s) (outside : ¬ top <+: s)
    (names' : t.Names dest (top ++ r)) : Touch root top t (.created (root.path.extend r)) t' := by
  obtain ⟨old, new, e, named, named', here, stays | ⟨replaces, grafted⟩⟩ := Tree.move_eq moved
  all_goals
    cases named.unique names
    cases named'.unique names'
  · exact absurd ⟨r, stays.1.symm⟩ outside
  · exact .moveIn outside here replaces grafted

end Touch
end StyleFeed
