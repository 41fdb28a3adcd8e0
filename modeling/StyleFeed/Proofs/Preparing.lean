import Mathlib.Data.List.TakeWhile
import StyleFeed.Proofs.Called
import StyleFeed.Proofs.Ways
import StyleFeed.Service

/-!
What it takes to prepare a watched root: directories come into being, and that is all (`Tree.makeAll_spec`); the
root is then a directory, called by its own route (`Root.prepare_spec`).
-/

namespace StyleFeed

theorem mem_of_mem_intercalate {α : Type} {a x : α} {s : List α} {l : List (List α)} (hs : s ∈ l) (hx : x ∈ s) :
    x ∈ [a].intercalate l := by
  induction l with
  | nil => cases hs
  | cons b l ih =>
    cases l with
    | nil =>
      cases List.mem_singleton.mp hs
      simpa using hx
    | cons c l =>
      rw [List.intercalate_cons_cons]
      rcases List.mem_cons.mp hs with rfl | hs
      · simp [hx]
      · exact List.mem_append_right _ (ih hs)

namespace Tree

variable {t t' : Tree} {r : Route} {p : Path}

theorem lastSegment_eq_some {before : List Bytes} {last : Bytes} (h : lastSegment p = some (before, last)) :
    ∃ trail, (∀ s ∈ trail, s = []) ∧ p.segments = before ++ last :: trail := by
  have whole := List.takeWhile_append_dropWhile (p := List.isEmpty) (l := p.segments.reverse)
  unfold lastSegment at h
  split at h
  · cases h
  · rename_i last' before' rest
    cases h
    rw [rest] at whole
    refine ⟨(p.segments.reverse.takeWhile (·.isEmpty)).reverse, ?_, ?_⟩
    · intro s mem
      have empty := List.mem_takeWhile_imp (List.mem_reverse.mp mem)
      exact List.isEmpty_iff.mp empty
    · have back := congrArg List.reverse whole
      simpa using back.symm

/-- The directory of an entry, and the entry's name. -/
theorem locateEntry_spec {n : FileName} (h : t.locateEntry p = .ok (r, some n)) :
    p.bytes ≠ [] ∧ hasNul p = false ∧ t.lookup? r = some .directory ∧ ∃ before trail, (∀ s ∈ trail, s = []) ∧
      p.segments = before ++ n.bytes :: trail ∧ t.locateSegments p before = .ok r := by
  unfold locateEntry at h
  split at h
  · cases h
  rename_i noNul
  split at h
  · cases h
  rename_i nonempty
  split at h
  · cases h
  rename_i before last parts
  split at h
  · cases h
  rename_i place located
  split at h
  · rename_i directory
    obtain ⟨rfl, name⟩ := Prod.mk.inj (Except.ok.inj h)
    obtain ⟨trail, empty, segments⟩ := lastSegment_eq_some parts
    rw [← FileName.ofBytes?_eq_some_iff.mp name] at segments
    exact ⟨nonempty, Bool.eq_false_iff.mpr noNul, directory, before, trail, empty, segments, located⟩
  · cases h
  · cases h

theorem noNul_of_mem_segments {s : Bytes} (noNul : hasNul p = false) (h : s ∈ p.segments) : 0 ∉ s := by
  intro nul
  have within := mem_of_mem_intercalate (a := slash) h nul
  rw [Path.segments, List.intercalate_splitOn] at within
  simp [hasNul, within] at noNul

theorem descend_empty {f : Route → Path → List Bytes → Except Missing Route} {trail : List Bytes}
    (directory : t.lookup? r = some .directory) (empty : ∀ s ∈ trail, s = []) : t.descend f r trail = .ok r := by
  induction trail with
  | nil => rfl
  | cons s trail ih =>
    obtain ⟨rfl, rest⟩ := List.forall_mem_cons.mp empty
    rw [descend, isDirectoryAt, directory]
    exact ih rest

/-- A directory is reached by its name from the one that it is in, also with slashes after it. -/
theorem descend_name {f : Route → Path → List Bytes → Except Missing Route} {n : FileName} {trail : List Bytes}
    (inside : t.lookup? r = some .directory) (here : t.lookup? (r ++ [n]) = some .directory)
    (empty : ∀ s ∈ trail, s = []) : t.descend f r (n.bytes :: trail) = .ok (r ++ [n]) := by
  simp only [descend, isDirectoryAt, inside, BEq.rfl, Bool.not_true, Bool.false_eq_true, if_false,
    n.proper.2.2.2, FileName.ofBytes?_bytes, here]
  exact descend_empty here empty

theorem workplace_put {k : Route} {e : Entry} (h : t.put? k e = some t') : t'.workplace = t.workplace := by
  unfold put? at h
  split at h
  · cases h
    rfl
  · cases h

theorem grows_put {n : FileName} (inside : t.lookup? r = some .directory) (free : t.lookup? (r ++ [n]) = none)
    (noNul : 0 ∉ n.bytes) (put : t.put? (r ++ [n]) .directory = some t') : Grows t t' where
  workplace := workplace_put put
  kept k e here := by
    rw [lookup?_put put]
    split
    · rename_i same
      rw [same, free] at here
      cases here
    · exact here
  fresh k e here := by
    rw [lookup?_put put] at here
    split at here
    · cases here
      exact .inr rfl
    · exact .inl here
  noNul plain k e here := by
    rw [lookup?_put put] at here
    split at here
    · rename_i same
      rw [same]
      intro m mem
      rcases List.mem_append.mp mem with mem | mem
      · exact plain r _ inside m mem
      · cases List.mem_singleton.mp mem
        exact noNul
    · exact plain k e here

theorem isDirectory_of_resolve (h : t.resolve p = .ok (r, .directory)) : t.isDirectory p := by
  rw [isDirectory, h]

theorem makeDirectory_spec (h : t.makeDirectory p = .ok t') : Grows t t' ∧ t'.isDirectory p := by
  obtain ⟨⟨r, n?⟩, entry, h⟩ := exists_of_bind_eq_ok h
  cases n? with
  | none => cases h
  | some n =>
    obtain ⟨nonempty, noNul, inside, before, trail, empty, segments, located⟩ := locateEntry_spec entry
    simp only at h
    split at h
    · rename_i made free put
      cases h
      have grows := grows_put inside free (noNul_of_mem_segments noNul (by simp [segments])) put
      have inside' := grows.kept r _ inside
      have here : t'.lookup? (r ++ [n]) = some .directory := by rw [lookup?_put put, if_pos rfl]
      -- the way to the outer directory is gone again in the new tree, and then by one name more
      have located' := locateSegments_grows grows inside (.refl before) located
      rw [locateSegments, ← List.append_nil before] at located'
      let P (y : Except Missing Route) : Prop := y = .ok (r ++ [n])
      have down (f) : P (t'.descend f r (n.bytes :: trail)) := descend_name inside' here empty
      have whole : t'.locateSegments p p.segments = .ok (r ++ [n]) := by
        rw [segments]
        exact descend_append (P := P) (.inl rfl) inside' down (follow_append (.inl rfl) inside' down linkLimit)
          located'
      have resolved := resolve_eq_ok_iff.mpr ⟨locate_eq_ok_iff.mpr ⟨nonempty, noNul, whole⟩, here⟩
      exact ⟨grows, isDirectory_of_resolve resolved⟩
    · cases h

/-- Of the paths, the first one leads to a directory then. -/
theorem makeAll_spec {paths : List Path} (h : t.makeAll paths = .ok t') :
    Grows t t' ∧ ∀ p ∈ paths.head?, p.bytes ≠ [] → t'.isDirectory p := by
  induction paths generalizing t t' with
  | nil => cases h
  | cons p outer ih =>
    have first {made : Tree} (grows : Grows t made) (h : made.isDirectory p) :
        Grows t made ∧ ∀ q ∈ (p :: outer).head?, q.bytes ≠ [] → made.isDirectory q := by
      refine ⟨grows, ?_⟩
      intro q mem _
      cases mem
      exact h
    rw [makeAll] at h
    split at h
    · rename_i empty
      cases h
      refine ⟨.refl t, ?_⟩
      intro q mem nonempty
      cases mem
      exact absurd empty nonempty
    split at h
    · rename_i made
      cases h
      obtain ⟨grows, directory⟩ := makeDirectory_spec made
      exact first grows directory
    split at h
    · obtain ⟨t₁, outside, h⟩ := exists_of_bind_eq_ok h
      have grows := (ih outside).1
      split at h
      · rename_i made
        cases h
        obtain ⟨more, directory⟩ := makeDirectory_spec made
        exact first (grows.trans more) directory
      · split at h
        · rename_i directory
          cases h
          exact first grows directory
        · cases h
    · split at h
      · rename_i directory
        cases h
        exact first (.refl t) directory
      · cases h

/-- The way to a route from the top leads there. -/
theorem resolve_top (plain : t.NulFree) (h : t.lookup? r = some .directory) :
    t.resolve (Path.extend ⟨[slash]⟩ r) = .ok (r, .directory) := by
  have top : t.locate ⟨[slash]⟩ = .ok [] := rfl
  have clear : t.Clear [] r := clear_of_lookup? (k := []) h (fun target link => nomatch link)
  exact (resolve_extend top (lookup?_nil t) clear (plain r _ h)).mpr ⟨rfl, h⟩

end Tree

/-- The root is a directory, which lies in the tree as it was and the directories that had to be made. -/
theorem Root.prepare_spec {t t' : Tree} {p : Path} {root : Root} (h : Root.prepare t p = .ok (t', root)) :
    t.Grows t' ∧ ∃ top, root.path = Path.extend ⟨[slash]⟩ top ∧ t'.lookup? top = some .directory := by
  obtain ⟨made, found, h⟩ := exists_of_bind_eq_ok h
  obtain ⟨path, canonical, h⟩ := exists_of_bind_eq_ok h
  cases h
  obtain ⟨grows, directory⟩ := Tree.makeAll_spec found
  refine ⟨grows, ?_⟩
  unfold Tree.canonical at canonical
  split at canonical
  · cases canonical
  split at canonical
  · rename_i top e resolved
    cases canonical
    obtain ⟨located, here⟩ := Tree.resolve_eq_ok_iff.mp resolved
    have isDirectory := directory p rfl (Tree.locate_eq_ok_iff.mp located).1
    refine ⟨top, rfl, ?_⟩
    rw [here]
    unfold Tree.isDirectory at isDirectory
    rw [resolved] at isDirectory
    split at isDirectory
    · rename_i same
      cases same
      rfl
    · cases isDirectory
  · cases canonical

end StyleFeed
