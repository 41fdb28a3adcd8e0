import Mathlib.Data.List.Nodup
import StyleFeed.Proofs.Paths
import StyleFeed.Tree.Edit
import StyleFeed.Tree.Walk

/-!
What stands at a route after an edit, and what a walk finds:

* `Tree.lookup?_put`, `Tree.lookup?_remove`, `Tree.lookup?_graft`: the edits, route by route;
* `Tree.mem_walk`, `Tree.nodup_walk`: a walk finds the files, each once.
-/

namespace StyleFeed.Tree

variable {t t' : Tree} {r k : Route} {e : Entry}

theorem mem_entries_iff (hr : r ≠ []) : (r, e) ∈ t.entries ↔ t.lookup? r = some e := by
  rw [lookup?_eq_some_iff]
  simp [hr]

/-- Two trees that hold the same entry at a route answer alike there. -/
theorem lookup?_eq_of_mem {s : Route} (hr : r ≠ []) (hs : s ≠ [])
    (h : ∀ e, (r, e) ∈ t'.entries ↔ (s, e) ∈ t.entries) : t'.lookup? r = t.lookup? s := by
  apply Option.ext
  intro e
  rw [← mem_entries_iff hr, ← mem_entries_iff hs, h]

theorem lookup?_eq_none (hr : r ≠ []) (h : ∀ e, (r, e) ∉ t.entries) : t.lookup? r = none := by
  cases hl : t.lookup? r with
  | none => rfl
  | some e => exact absurd ((mem_entries_iff hr).mpr hl) (h e)

theorem lookup?_put (h : t.put? k e = some t') (r : Route) :
    t'.lookup? r = if r = k then some e else t.lookup? r := by
  unfold put? at h
  split at h
  · rename_i possible
    obtain ⟨rfl⟩ := h
    by_cases hr : r = []
    · subst hr
      rw [if_neg (Ne.symm possible.1), lookup?_nil, lookup?_nil]
    split
    · rename_i same
      subst same
      rw [← mem_entries_iff hr]
      simp
    · rename_i other
      apply lookup?_eq_of_mem hr hr
      simp [other]
  · cases h

theorem isPrefixOf_eq_false_iff {k r : Route} : k.isPrefixOf r = false ↔ ¬ k <+: r := by
  rw [← List.isPrefixOf_iff_prefix, Bool.not_eq_true]

theorem lookup?_remove (hk : k ≠ []) (r : Route) :
    (t.remove k).lookup? r = if k <+: r then none else t.lookup? r := by
  by_cases hr : r = []
  · subst hr
    rw [if_neg (by simpa using hk), lookup?_nil, lookup?_nil]
  split
  · rename_i below
    apply lookup?_eq_none hr
    simp [remove, below]
  · rename_i apart
    apply lookup?_eq_of_mem hr hr
    simp [remove, isPrefixOf_eq_false_iff, apart]

/-- What `graft?` asks for. -/
theorem bare_of_graft {src dest : Route} (h : t.graft? src dest = some t') :
    src ≠ [] ∧ dest ≠ [] ∧ ¬ src <+: dest ∧ t.lookup? dest.dropLast = some .directory ∧
      ∀ x, x ≠ [] → t.lookup? (dest ++ x) = none := by
  unfold graft? at h
  split at h
  · rename_i possible
    obtain ⟨srcBelow, destBelow, apart, parent, bare⟩ := possible
    refine ⟨srcBelow, destBelow, apart, parent, fun x hx => ?_⟩
    apply lookup?_eq_none (by simp [hx])
    intro e hm
    have := bare _ hm (by simp)
    simp [hx] at this
  · cases h

theorem lookup?_graft {src dest : Route} (h : t.graft? src dest = some t') (r : Route) :
    t'.lookup? r = match dest.isPrefixOf? r with
      | some x => t.lookup? (src ++ x)
      | none => if src <+: r then none else t.lookup? r := by
  obtain ⟨srcBelow, destBelow, apart, -, bare⟩ := bare_of_graft h
  unfold graft? at h
  split at h
  · obtain ⟨rfl⟩ := h
    have mem (r : Route) (e : Entry) :
        (r, e) ∈ t.entries.filter (fun x => !src.isPrefixOf x.1 && x.1 ≠ dest) ++ t.grafted src dest ↔
          ((r, e) ∈ t.entries ∧ ¬ src <+: r ∧ r ≠ dest) ∨
            ∃ x, r = dest ++ x ∧ (src ++ x, e) ∈ t.entries := by
      rw [List.mem_append, List.mem_filter, mem_grafted]
      simp [isPrefixOf_eq_false_iff]
    split
    · rename_i x hx
      rw [List.isPrefixOf?_eq_some_iff_append_eq] at hx
      subst hx
      apply lookup?_eq_of_mem (by simp [destBelow]) (by simp [srcBelow])
      intro e
      simp only [mem]
      constructor
      · rintro (⟨hm, -, other⟩ | ⟨y, same, hm⟩)
        · have some := (mem_entries_iff (by simp [destBelow])).mp hm
          have hx : x ≠ [] := by
            rintro rfl
            exact other (List.append_nil _)
          rw [bare x hx] at some
          cases some
        · rwa [List.append_cancel_left same]
      · intro hm
        exact .inr ⟨x, rfl, hm⟩
    · rename_i outside
      have outside' (x : Route) : r ≠ dest ++ x := by
        rintro rfl
        rw [List.isPrefixOf?_eq_some_iff_append_eq.mpr rfl] at outside
        cases outside
      by_cases hr : r = []
      · subst hr
        rw [if_neg (by simpa using srcBelow), lookup?_nil, lookup?_nil]
      split
      · rename_i below
        apply lookup?_eq_none hr
        intro e
        simp only [mem]
        rintro (⟨-, h, -⟩ | ⟨x, h, -⟩)
        · exact h below
        · exact outside' x h
      · rename_i above
        apply lookup?_eq_of_mem hr hr
        intro e
        simp only [mem]
        constructor
        · rintro (⟨hm, -, -⟩ | ⟨x, h, -⟩)
          · exact hm
          · exact absurd h (outside' x)
        · intro hm
          refine .inl ⟨hm, above, ?_⟩
          have := outside' []
          rwa [List.append_nil] at this
  · cases h

/-! ## Walks -/

@[simp]
theorem mem_children {n : FileName} : (n, e) ∈ t.children k ↔ t.lookup? (k ++ [n]) = some e := by
  rw [← mem_entries_iff (by simp), children, List.mem_filterMap]
  constructor
  · rintro ⟨⟨r, e'⟩, hm, h⟩
    simp only at h
    split at h
    · rename_i m hp
      rw [List.isPrefixOf?_eq_some_iff_append_eq] at hp
      cases h
      rwa [hp]
    · cases h
  · intro hm
    refine ⟨_, hm, ?_⟩
    simp only [List.isPrefixOf?_eq_some_iff_append_eq.mpr (rfl : k ++ [n] = k ++ [n])]

theorem mem_filesWithin {depth : Nat} :
    r ∈ t.filesWithin depth k ↔
      r ≠ [] ∧ r.length ≤ depth ∧ .git ∉ r ∧ ∃ b, t.lookup? (k ++ r) = some (.file b) := by
  induction depth generalizing k r with
  | zero =>
    rw [filesWithin]
    simp only [List.not_mem_nil, Nat.le_zero, List.length_eq_zero_iff, false_iff]
    rintro ⟨hr, h, -⟩
    exact hr h
  | succ depth ih =>
    rw [filesWithin, List.mem_flatMap]
    constructor
    · rintro ⟨⟨n, e⟩, hm, h⟩
      obtain ⟨hn, git⟩ := List.mem_filter.mp hm
      rw [mem_children] at hn
      have other : .git ≠ n := Ne.symm (of_decide_eq_true git)
      cases e with
      | file b =>
        simp only [List.mem_singleton] at h
        subst h
        exact ⟨by simp, by simp, by simpa using other, b, hn⟩
      | link target => cases h
      | directory =>
        simp only [List.mem_map] at h
        obtain ⟨s, hs, rfl⟩ := h
        obtain ⟨-, short, noGit, b, hb⟩ := ih.mp hs
        refine ⟨by simp, by simpa using short, by simp [other, noGit], b, ?_⟩
        rwa [List.append_assoc] at hb
    · rintro ⟨hr, short, noGit, b, hb⟩
      obtain ⟨n, s, rfl⟩ := List.exists_cons_of_ne_nil hr
      simp only [List.mem_cons, not_or] at noGit
      have split : k ++ n :: s = k ++ [n] ++ s := by simp
      by_cases hs : s = []
      · subst hs
        exact ⟨(n, .file b), by simpa [mem_children, Ne.symm noGit.1] using hb, by simp⟩
      · rw [split] at hb
        have inside := lookup?_of_below hs hb
        refine ⟨(n, .directory), by simpa [mem_children, Ne.symm noGit.1] using inside, ?_⟩
        exact List.mem_map.mpr ⟨s, ih.mpr ⟨hs, by simpa using short, noGit.2, b, hb⟩, rfl⟩

theorem distinct_children (t : Tree) (k : Route) : (t.children k).Pairwise fun c d => c.1 ≠ d.1 := by
  obtain ⟨f, children, route⟩ : ∃ f, t.children k = t.entries.filterMap f ∧
      ∀ x c, f x = some c → x.1 = k ++ [c.1] := by
    refine ⟨_, rfl, ?_⟩
    rintro ⟨r, e⟩ c h
    simp only at h
    split at h
    · rename_i n hp
      rw [List.isPrefixOf?_eq_some_iff_append_eq] at hp
      obtain ⟨rfl⟩ := h
      exact hp.symm
    · cases h
  rw [children]
  refine (List.pairwise_map.mp t.distinct).filterMap f ?_
  intro x y other c hc d hd same
  apply other
  rw [route x c hc, route y d hd, same]

theorem nodup_filesWithin (t : Tree) (depth : Nat) (k : Route) : (t.filesWithin depth k).Nodup := by
  induction depth generalizing k with
  | zero => exact List.nodup_nil
  | succ depth ih =>
    -- what is found by one name begins with that name
    obtain ⟨f, files, each⟩ : ∃ f, t.filesWithin (depth + 1) k =
        ((t.children k).filter (·.1 ≠ .git)).flatMap f ∧
        ∀ c, (f c).Nodup ∧ ∀ r ∈ f c, r.head? = some c.1 := by
      refine ⟨_, rfl, ?_⟩
      rintro ⟨n, e⟩
      cases e with
      | file b => exact ⟨List.nodup_singleton _, by simp⟩
      | link target => exact ⟨List.nodup_nil, nofun⟩
      | directory =>
        refine ⟨(ih (k ++ [n])).map fun r s h => List.tail_eq_of_cons_eq h, ?_⟩
        intro r hr
        obtain ⟨s, -, rfl⟩ := List.mem_map.mp hr
        rfl
    rw [files, List.nodup_flatMap]
    constructor
    · intro c _
      exact (each c).1
    · refine ((distinct_children t k).sublist List.filter_sublist).imp ?_
      intro c d other r hc hd
      apply other
      have same := ((each c).2 r hc).symm.trans ((each d).2 r hd)
      exact Option.some.inj same

theorem length_le_height (h : (r, e) ∈ t.entries) : r.length ≤ t.height := by
  have least (l : List Nat) (n : Nat) : n ≤ l.foldl max n ∧ ∀ m ∈ l, m ≤ l.foldl max n := by
    induction l generalizing n with
    | nil => simp
    | cons m l ih =>
      obtain ⟨first, rest⟩ := ih (max n m)
      rw [List.foldl_cons]
      refine ⟨Nat.le_trans (Nat.le_max_left n m) first, List.forall_mem_cons.mpr ⟨?_, rest⟩⟩
      exact Nat.le_trans (Nat.le_max_right n m) first
  exact (least _ 0).2 _ (List.mem_map.mpr ⟨(r, e), h, rfl⟩)

/-- The walk of a directory finds the files below it, save those under `.git`. -/
theorem mem_walk {p : Path} (h : t.resolve p = .ok (k, .directory)) :
    r ∈ t.walk p ↔ r ≠ [] ∧ .git ∉ r ∧ ∃ b, t.lookup? (k ++ r) = some (.file b) := by
  rw [walk, h, mem_filesWithin]
  constructor
  · rintro ⟨hr, -, noGit, found⟩
    exact ⟨hr, noGit, found⟩
  · rintro ⟨hr, noGit, b, hb⟩
    have short := length_le_height ((mem_entries_iff (by simp [hr])).mpr hb)
    rw [List.length_append] at short
    exact ⟨hr, by omega, noGit, b, hb⟩

theorem nodup_walk (t : Tree) (p : Path) : (t.walk p).Nodup := by
  unfold walk
  split
  · exact nodup_filesWithin t _ _
  · exact List.nodup_singleton _
  · exact List.nodup_nil

end StyleFeed.Tree
