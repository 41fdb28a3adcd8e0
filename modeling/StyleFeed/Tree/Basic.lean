import StyleFeed.Path

/-!
File trees. Every entry stands under its route, the names that lead to it from the top; the top is a
directory that is always there. An entry has a parent directory and no two entries share a route.
-/

namespace StyleFeed

inductive Entry
  | file (content : Bytes)
  | directory
  | link (target : Path)
deriving DecidableEq

abbrev Route := List FileName

structure Tree where
  entries : List (Route × Entry)
  /-- Where relative paths begin. -/
  workplace : Route
  distinct : (entries.map Prod.fst).Nodup
  rooted : ∀ x ∈ entries, x.1 ≠ [] ∧ (x.1.dropLast = [] ∨ (x.1.dropLast, .directory) ∈ entries)

namespace Tree

def empty (workplace : Route) : Tree := ⟨[], workplace, .nil, by simp⟩

def lookup? (t : Tree) (r : Route) : Option Entry :=
  if r = [] then some .directory else t.entries.lookup r

def isDirectoryAt (t : Tree) (r : Route) : Bool :=
  t.lookup? r == some .directory

theorem lookup_eq_some_iff {l : List (Route × Entry)} (h : (l.map Prod.fst).Nodup) {r : Route} {e : Entry} :
    l.lookup r = some e ↔ (r, e) ∈ l := by
  induction l with
  | nil => simp
  | cons x l ih =>
    obtain ⟨k, v⟩ := x
    simp only [List.map_cons, List.nodup_cons] at h
    by_cases hk : r = k
    · subst hk
      simp only [List.lookup_cons_self, Option.some.injEq, List.mem_cons, Prod.mk.injEq, true_and]
      constructor
      · rintro rfl; exact .inl rfl
      · rintro (rfl | hm)
        · rfl
        · exact absurd (List.mem_map_of_mem hm) h.1
    · have hb : (r == k) = false := by simp [hk]
      rw [List.lookup_cons, hb]
      simp [hk, ih h.2]

theorem lookup?_eq_some_iff {t : Tree} {r : Route} {e : Entry} :
    t.lookup? r = some e ↔ (r = [] ∧ e = .directory) ∨ (r, e) ∈ t.entries := by
  unfold lookup?
  split
  · rename_i h
    subst h
    have : ([], e) ∉ t.entries := fun hm => (t.rooted _ hm).1 rfl
    simp [this, eq_comm]
  · rename_i h
    simp [h, lookup_eq_some_iff t.distinct]

/-- What is not at the top lies in a directory. -/
theorem isDirectoryAt_dropLast {t : Tree} {r : Route} {e : Entry} (h : (r, e) ∈ t.entries) :
    t.lookup? r.dropLast = some .directory := by
  rw [lookup?_eq_some_iff]
  rcases (t.rooted _ h).2 with h | h
  · exact .inl ⟨h, rfl⟩
  · exact .inr h

/-- The entries of the directory at a route, with their names. -/
def children (t : Tree) (r : Route) : List (FileName × Entry) :=
  t.entries.filterMap fun (k, e) =>
    match r.isPrefixOf? k with
    | some [n] => some (n, e)
    | _ => none

/-- The length of the longest route. -/
def height (t : Tree) : Nat :=
  (t.entries.map (·.1.length)).foldl max 0

end Tree
end StyleFeed
