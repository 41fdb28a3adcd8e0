import Mathlib.Data.List.Basic
import Mathlib.Data.List.Induction
import StyleFeed.Fallible
import StyleFeed.Tree.Resolve

/-!
Paths that go on from another one by names:

* `Path.components_extend`, `Path.below?_extend`: the names are the components that are added;
* `Tree.resolve_extend`: from the place that a path leads to, the names lead to the route below it, as long as
  there are no links on the way.
-/

namespace StyleFeed

namespace FileName

@[simp]
theorem ne_nil (n : FileName) : n.bytes ≠ [] := n.proper.1

@[simp]
theorem slash_notMem (n : FileName) : slash ∉ n.bytes := n.proper.2.1

@[simp]
theorem ofBytes?_bytes (n : FileName) : ofBytes? n.bytes = some n :=
  ofBytes?_eq_some_iff.mpr rfl

end FileName

namespace Component

@[simp]
theorem ofSegment?_bytes (n : FileName) : ofSegment? n.bytes = some (.name n) := by
  rw [ofSegment?, if_neg n.proper.2.2.2, FileName.ofBytes?_bytes]
  rfl

@[simp]
theorem ofSegment?_nil : ofSegment? [] = none := by decide

end Component

namespace Path

@[simp]
theorem isAbsolute_name (n : FileName) : Path.isAbsolute ⟨n.bytes⟩ = false := by
  simp only [isAbsolute, beq_eq_false_iff_ne]
  intro h
  exact n.slash_notMem (List.mem_of_mem_head? h)

theorem child_of_nil {p : Path} (h : p.bytes = []) (n : FileName) : p.child n = ⟨n.bytes⟩ := by
  simp [child, join, isAbsolute_name, h]

theorem bytes_child {p : Path} (h : p.bytes ≠ []) (n : FileName) :
    (p.child n).bytes =
      if p.bytes.getLast? = some slash then p.bytes ++ n.bytes else p.bytes ++ slash :: n.bytes := by
  unfold child join
  simp only [isAbsolute_name, Bool.false_eq_true, if_false, h, false_or]
  split <;> rfl

@[simp]
theorem bytes_child_ne_nil (p : Path) (n : FileName) : (p.child n).bytes ≠ [] := by
  by_cases h : p.bytes = []
  · rw [child_of_nil h]
    exact n.ne_nil
  rw [bytes_child h]
  split <;> simp [h]

theorem isAbsolute_child {p : Path} (h : p.bytes ≠ []) (n : FileName) :
    (p.child n).isAbsolute = p.isAbsolute := by
  have first (b : Bytes) : (p.bytes ++ b).head? = p.bytes.head? := by
    obtain ⟨a, rest, hp⟩ := List.exists_cons_of_ne_nil h
    rw [hp]
    rfl
  rw [isAbsolute, bytes_child h]
  split <;> rw [first] <;> rfl

theorem getLast?_child (p : Path) (n : FileName) : (p.child n).bytes.getLast? ≠ some slash := by
  have ends : (p.child n).bytes.getLast? = n.bytes.getLast? := by
    by_cases h : p.bytes = []
    · rw [child_of_nil h]
    obtain ⟨b, hb⟩ := Option.isSome_iff_exists.mp (List.getLast?_isSome.mpr n.ne_nil)
    rw [bytes_child h, hb]
    split
    · rw [List.getLast?_append, hb]
      rfl
    · rw [List.getLast?_append, List.getLast?_cons, hb]
      rfl
  rw [ends]
  exact fun hs => n.slash_notMem (List.mem_of_getLast? hs)

/-- The segments of the directory; a slash at the end leaves an empty one. -/
structure Spells (p : Path) (before trail : List Bytes) : Prop where
  segments : p.segments = before ++ trail
  nonempty : before ≠ []
  trail : trail = [] ∨ trail = [[]]

theorem splitOn_concat_name (b : Bytes) (n : FileName) :
    (b ++ slash :: n.bytes).splitOn slash = b.splitOn slash ++ [n.bytes] := by
  rw [List.splitOn_append_cons_self, List.splitOn_eq_singleton n.slash_notMem]

theorem segments_child_of_getLast? {p : Path} (h : p.bytes ≠ []) (hs : p.bytes.getLast? ≠ some slash)
    (n : FileName) : (p.child n).segments = p.segments ++ [n.bytes] := by
  rw [segments, bytes_child h, if_neg hs, splitOn_concat_name]
  rfl

theorem segments_child {p : Path} (h : p.bytes ≠ []) :
    ∃ before trail, p.Spells before trail ∧ ∀ n, (p.child n).segments = before ++ [n.bytes] := by
  by_cases hs : p.bytes.getLast? = some slash
  · obtain ⟨q, hq⟩ := List.getLast?_eq_some_iff.mp hs
    refine ⟨q.splitOn slash, [[]], ⟨?_, List.splitOn_ne_nil _ _, .inr rfl⟩, ?_⟩
    · rw [segments, hq, List.splitOn_append_cons_self]
      rfl
    · intro n
      rw [segments, bytes_child h, if_pos hs, hq, List.append_assoc, List.singleton_append,
        splitOn_concat_name]
  · exact ⟨p.segments, [], ⟨(List.append_nil _).symm, List.splitOn_ne_nil _ _, .inl rfl⟩,
      segments_child_of_getLast? h hs⟩

@[simp]
theorem components_nil : (⟨[]⟩ : Path).components = [] := by decide

@[simp]
theorem components_name (n : FileName) : (⟨n.bytes⟩ : Path).components = [.name n] := by
  have segments : (⟨n.bytes⟩ : Path).segments = [n.bytes] := List.splitOn_eq_singleton n.slash_notMem
  have start : (⟨n.bytes⟩ : Path).start = [] := by simp [Path.start, isAbsolute_name, segments, n.proper.2.2.1]
  simp [components, start, segments, Component.ofSegment?_bytes]

@[simp]
theorem components_child (p : Path) (n : FileName) : (p.child n).components = p.components ++ [.name n] := by
  by_cases h : p.bytes = []
  · rw [child_of_nil h, components_name, show p = ⟨[]⟩ by cases p; simpa using h, components_nil]
    rfl
  obtain ⟨before, trail, spelt, child⟩ := segments_child h
  have start : (p.child n).start = p.start := by
    have first : (p.child n).segments.head? = p.segments.head? := by
      rw [child, spelt.segments]
      obtain ⟨s, rest, rfl⟩ := List.exists_cons_of_ne_nil spelt.nonempty
      rfl
    rw [Path.start, Path.start, isAbsolute_child h, first]
  have same : p.segments.filterMap Component.ofSegment? = before.filterMap Component.ofSegment? := by
    rcases spelt.trail with rfl | rfl <;> rw [spelt.segments, List.filterMap_append]
    · exact List.append_nil _
    · rw [List.filterMap_cons, Component.ofSegment?_nil]
      exact List.append_nil _
  rw [components, start, child, List.filterMap_append, ← same, ← List.append_assoc]
  simp [components, Component.ofSegment?_bytes]

theorem extend_cons (p : Path) (n : FileName) (r : List FileName) :
    p.extend (n :: r) = (p.child n).extend r := rfl

@[simp]
theorem extend_append (p : Path) (r s : List FileName) : p.extend (r ++ s) = (p.extend r).extend s :=
  List.foldl_append

theorem bytes_extend_ne_nil {p : Path} (h : p.bytes ≠ []) (r : List FileName) :
    (p.extend r).bytes ≠ [] := by
  induction r generalizing p with
  | nil => exact h
  | cons n r ih => exact ih (bytes_child_ne_nil p n)

theorem isAbsolute_extend {p : Path} (h : p.bytes ≠ []) (r : List FileName) :
    (p.extend r).isAbsolute = p.isAbsolute := by
  induction r generalizing p with
  | nil => rfl
  | cons n r ih => rw [extend_cons, ih (bytes_child_ne_nil p n), isAbsolute_child h]

@[simp]
theorem components_extend (p : Path) (r : List FileName) :
    (p.extend r).components = p.components ++ r.map .name := by
  induction r generalizing p with
  | nil => simp [extend]
  | cons n r ih =>
    rw [extend_cons, ih, components_child, List.append_assoc]
    rfl

theorem below?_extend (p : Path) (r : List FileName) : (p.extend r).below? p = some (r.map .name) := by
  rw [below?, List.isPrefixOf?_eq_some_iff_append_eq, components_extend]

/-- Where names follow, it does not matter any more whether the path ended in a slash. -/
theorem segments_extend {p : Path} (h : p.bytes ≠ []) :
    ∃ before trail, p.Spells before trail ∧
      ∀ n r, (p.extend (n :: r)).segments = before ++ (n :: r).map FileName.bytes := by
  have go {q : Path} (hq : q.bytes ≠ []) (hs : q.bytes.getLast? ≠ some slash) (r : List FileName) :
      (q.extend r).segments = q.segments ++ r.map FileName.bytes := by
    induction r generalizing q with
    | nil => exact (List.append_nil _).symm
    | cons m r ih =>
      rw [extend_cons, ih (bytes_child_ne_nil q m) (getLast?_child q m),
        segments_child_of_getLast? hq hs, List.append_assoc]
      rfl
  obtain ⟨before, trail, spelt, child⟩ := segments_child h
  refine ⟨before, trail, spelt, fun n r => ?_⟩
  rw [extend_cons, go (bytes_child_ne_nil p n) (getLast?_child p n), child, List.append_assoc]
  rfl

end Path

namespace Tree

@[simp]
theorem lookup?_nil (t : Tree) : t.lookup? [] = some .directory := if_pos rfl

/-- Only directories have anything below them. -/
theorem lookup?_of_below {t : Tree} {k s : Route} {e : Entry} (hs : s ≠ [])
    (h : t.lookup? (k ++ s) = some e) : t.lookup? k = some .directory := by
  induction s using List.reverseRec generalizing e with
  | nil => exact absurd rfl hs
  | append_singleton s n ih =>
    rw [← List.append_assoc] at h
    rcases lookup?_eq_some_iff.mp h with ⟨h, -⟩ | h
    · simp at h
    have inside := isDirectoryAt_dropLast h
    rw [List.dropLast_concat] at inside
    by_cases hs : s = []
    · rwa [hs, List.append_nil] at inside
    · exact ih hs inside

theorem lookup?_below_eq_none {t : Tree} {k s : Route} (h : t.lookup? k ≠ some .directory) (hs : s ≠ []) :
    t.lookup? (k ++ s) = none := by
  cases hl : t.lookup? (k ++ s) with
  | none => rfl
  | some e => exact absurd (lookup?_of_below hs hl) h

/-- There are no links at the route nor below it. -/
def Linkless (t : Tree) (k : Route) : Prop :=
  ∀ s target, t.lookup? (k ++ s) ≠ some (.link target)

/-- There are no links on the way from `k` on along `r`. -/
def Clear (t : Tree) (k r : Route) : Prop :=
  ∀ s, s ≠ [] → s <+: r → ∀ target, t.lookup? (k ++ s) ≠ some (.link target)

theorem Linkless.clear {t : Tree} {k : Route} (h : t.Linkless k) (r : Route) : t.Clear k r :=
  fun s _ _ target => h s target

theorem Clear.tail {t : Tree} {k r : Route} {n : FileName} (h : t.Clear k (n :: r)) : t.Clear (k ++ [n]) r := by
  intro s _ within target
  rw [List.append_assoc]
  exact h (n :: s) (List.cons_ne_nil n s) (List.cons_prefix_cons.mpr ⟨rfl, within⟩) target

/-- The way to something that is no link goes through none. -/
theorem clear_of_lookup? {t : Tree} {k r : Route} {e : Entry} (h : t.lookup? (k ++ r) = some e)
    (notLink : ∀ target, e ≠ .link target) : t.Clear k r := by
  intro s _ within target link
  obtain ⟨x, rfl⟩ := within
  rw [← List.append_assoc] at h
  by_cases last : x = []
  · rw [last, List.append_nil, link] at h
    exact notLink target (Option.some.inj h).symm
  · rw [lookup?_of_below last h] at link
    cases link

/-- Going down names leads to what is there, or nowhere. -/
theorem descend_names {t : Tree} {k r : Route} (clear : t.Clear k r)
    (f : Route → Path → List Bytes → Except Missing Route) (x : Route) (e : Entry) :
    (t.descend f k (r.map FileName.bytes) = .ok x ∧ t.lookup? x = some e) ↔
      x = k ++ r ∧ t.lookup? x = some e := by
  induction r generalizing k with
  | nil => simp [descend, eq_comm]
  | cons n r ih =>
    have split : k ++ n :: r = k ++ [n] ++ r := by simp
    rw [List.map_cons, descend]
    by_cases hk : t.lookup? k = some .directory
    · simp only [isDirectoryAt, hk, BEq.rfl, Bool.not_true, Bool.false_eq_true, if_false,
        n.proper.2.2.2, FileName.ofBytes?_bytes]
      cases hn : t.lookup? (k ++ [n]) with
      | none =>
        have nothing (hr : r ≠ []) : t.lookup? (k ++ n :: r) = none := by
          rw [split]
          exact lookup?_below_eq_none (by simp [hn]) hr
        by_cases hr : r = []
        · subst hr
          simp [eq_comm]
        · simp only [List.map_eq_nil_iff, hr, if_false, reduceCtorEq, false_and, false_iff]
          rintro ⟨rfl, h⟩
          rw [nothing hr] at h
          cases h
      | some entry =>
        cases entry with
        | link target => exact absurd hn (clear [n] (by simp) (by simp) target)
        | file content =>
          simp only
          rw [ih clear.tail, split]
        | directory =>
          simp only
          rw [ih clear.tail, split]
    · have closed : t.isDirectoryAt k = false := by simpa [isDirectoryAt] using hk
      simp only [closed, Bool.not_false, if_true, reduceCtorEq, false_and, false_iff]
      rintro ⟨rfl, h⟩
      exact hk (lookup?_of_below (by simp) h)

variable {t : Tree} {trail more : List Bytes} {k : Route} {P : Except Missing Route → Prop}

/-- What follows the way to a directory is looked up there. -/
theorem descend_append {f : Route → Path → List Bytes → Except Missing Route} {before : List Bytes} {o : Route}
    (htrail : trail = [] ∨ trail = [[]]) (hk : t.lookup? k = some .directory)
    (down : ∀ f, P (t.descend f k more))
    (hf : ∀ r target rest, f r target (rest ++ trail) = .ok k → P (f r target (rest ++ more)))
    (h : t.descend f o (before ++ trail) = .ok k) : P (t.descend f o (before ++ more)) := by
  induction before generalizing o with
  | nil =>
    have : o = k := by
      rcases htrail with rfl | rfl
      · exact Except.ok.inj h
      · rw [List.nil_append, descend] at h
        split at h
        · cases h
        · exact Except.ok.inj h
    rw [List.nil_append, this]
    exact down f
  | cons s before ih =>
    rw [List.cons_append, descend] at h ⊢
    split at h
    · cases h
    rename_i inside
    rw [if_neg inside]
    split at h
    · rw [if_pos ‹_›]
      exact ih h
    rw [if_neg ‹_›]
    split at h
    · exact ih h
    split at h
    · rename_i free
      split at h
      · -- what the whole way leads to is not free
        cases Except.ok.inj h
        rw [free] at hk
        cases hk
      · cases h
    · exact hf _ _ _ h
    · exact ih h

theorem follow_append (htrail : trail = [] ∨ trail = [[]]) (hk : t.lookup? k = some .directory)
    (down : ∀ f, P (t.descend f k more)) (links : Nat) (r : Route) (target : Path) (rest : List Bytes)
    (h : t.follow links r target (rest ++ trail) = .ok k) : P (t.follow links r target (rest ++ more)) := by
  induction links generalizing r target rest with
  | zero => cases h
  | succ links ih =>
    rw [follow, ← List.append_assoc] at h ⊢
    exact descend_append htrail hk down ih h

/-- Links on the way are followed, also the last one. -/
theorem descend_notLink {f : Route → Path → List Bytes → Except Missing Route} {segments : List Bytes}
    {r x : Route} (follows : ∀ r target rest y, f r target rest = .ok y → ∀ q, t.lookup? y ≠ some (.link q))
    (start : segments = [] → ∀ q, t.lookup? r ≠ some (.link q)) (h : t.descend f r segments = .ok x) :
    ∀ q, t.lookup? x ≠ some (.link q) := by
  induction segments generalizing r with
  | nil =>
    cases h
    exact start rfl
  | cons s rest ih =>
    rw [descend] at h
    split at h
    · cases h
    rename_i inside
    have directory : t.lookup? r = some .directory := by simpa [isDirectoryAt] using inside
    split at h
    · refine ih (fun _ q link => ?_) h
      rcases lookup?_eq_some_iff.mp directory with ⟨rfl, -⟩ | entry
      · cases directory.symm.trans link
      · cases (isDirectoryAt_dropLast entry).symm.trans link
    split at h
    · exact ih (fun _ q link => nomatch directory.symm.trans link) h
    split at h
    · rename_i free
      split at h
      · cases h
        exact fun q link => nomatch free.symm.trans link
      · cases h
    · exact follows _ _ _ _ h
    · rename_i other entry
      exact ih (fun _ q link => other q (Option.some.inj (entry.symm.trans link))) h

theorem hasNul_child {p : Path} (h : p.bytes ≠ []) (n : FileName) :
    hasNul (p.child n) = (hasNul p || n.bytes.contains 0) := by
  rw [hasNul, Path.bytes_child h, hasNul]
  split <;> simp [slash]

theorem hasNul_extend {p : Path} (h : p.bytes ≠ []) {r : Route} (plain : ∀ n ∈ r, 0 ∉ n.bytes) :
    hasNul (p.extend r) = hasNul p := by
  induction r generalizing p with
  | nil => rfl
  | cons n r ih =>
    have := plain n List.mem_cons_self
    rw [Path.extend_cons, ih (Path.bytes_child_ne_nil p n) fun m hm => plain m (List.mem_cons_of_mem n hm),
      hasNul_child h]
    simp [this]

theorem locate_eq_ok_iff {p : Path} {x : Route} :
    t.locate p = .ok x ↔ p.bytes ≠ [] ∧ hasNul p = false ∧ t.locateSegments p p.segments = .ok x := by
  unfold locate
  split
  · rename_i h
    simp only [reduceCtorEq, false_iff]
    rintro ⟨nonempty, noNul, -⟩
    rcases h with h | h
    · exact nonempty h
    · rw [noNul] at h
      cases h
  · rename_i h
    obtain ⟨nonempty, noNul⟩ := not_or.mp h
    simp [nonempty, noNul]

theorem resolve_eq_ok_iff {p : Path} {x : Route} {e : Entry} :
    t.resolve p = .ok (x, e) ↔ t.locate p = .ok x ∧ t.lookup? x = some e := by
  unfold resolve
  cases t.locate p with
  | error m => simp
  | ok r =>
    simp only [ok_bind, Except.ok.injEq]
    cases h : t.lookup? r with
    | none =>
      simp only [reduceCtorEq, false_iff]
      rintro ⟨rfl, h'⟩
      rw [h] at h'
      cases h'
    | some e' =>
      simp only [Except.ok.injEq, Prod.mk.injEq]
      constructor
      · rintro ⟨rfl, rfl⟩
        exact ⟨rfl, h⟩
      · rintro ⟨rfl, h'⟩
        rw [h] at h'
        exact ⟨rfl, Option.some.inj h'⟩

theorem resolve_notLink {p : Path} {e : Entry} (h : t.resolve p = .ok (k, e)) : ∀ q, e ≠ .link q := by
  have follows (links : Nat) : ∀ r target rest y, t.follow links r target rest = .ok y →
      ∀ q, t.lookup? y ≠ some (.link q) := by
    induction links with
    | zero => exact fun _ _ _ _ h => nomatch h
    | succ links ih =>
      intro r target rest y h
      refine descend_notLink ih (fun nothing => ?_) h
      exact absurd (List.append_eq_nil_iff.mp nothing).1 (List.splitOn_ne_nil _ _)
  obtain ⟨located, here⟩ := resolve_eq_ok_iff.mp h
  obtain ⟨-, -, down⟩ := locate_eq_ok_iff.mp located
  rintro q rfl
  exact descend_notLink (follows linkLimit) (fun nothing => absurd nothing (List.splitOn_ne_nil _ _)) down q here

theorem read_eq_ok_iff {p : Path} {b : Bytes} : t.read p = .ok b ↔ ∃ r, t.resolve p = .ok (r, .file b) := by
  unfold read
  split
  · rename_i nul
    simp only [reduceCtorEq, false_iff]
    rintro ⟨r, found⟩
    rw [(locate_eq_ok_iff.mp (resolve_eq_ok_iff.mp found).1).2.1] at nul
    cases nul
  · split <;> simp_all

theorem readText_eq_ok_iff {p : Path} {content : String} :
    t.readText p = .ok content ↔ ∃ r b, t.resolve p = .ok (r, .file b) ∧ Utf8.decode? b = some content := by
  constructor
  · intro h
    cases found : t.read p with
    | error cause => rw [readText, found] at h; cases h
    | ok b =>
      obtain ⟨r, there⟩ := read_eq_ok_iff.mp found
      refine ⟨r, b, there, ?_⟩
      cases decoded : Utf8.decode? b with
      | none => simp [readText, found, decoded] at h
      | some s => simpa [readText, found, decoded] using h
  · rintro ⟨r, b, there, decoded⟩
    simp [readText, read_eq_ok_iff.mpr ⟨r, there⟩, decoded]

/-- Names lead from a directory to the route that they spell, as long as there are no links on the way. -/
theorem resolve_extend {p : Path} {r : Route} (h : t.locate p = .ok k) (hk : t.lookup? k = some .directory)
    (clear : t.Clear k r) (plain : ∀ n ∈ r, 0 ∉ n.bytes) {x : Route} {e : Entry} :
    t.resolve (p.extend r) = .ok (x, e) ↔ x = k ++ r ∧ t.lookup? x = some e := by
  rw [resolve_eq_ok_iff]
  cases r with
  | nil =>
    rw [show p.extend [] = p from rfl, h, List.append_nil, Except.ok.injEq, eq_comm]
  | cons n r =>
    obtain ⟨nonempty, noNul, located⟩ := locate_eq_ok_iff.mp h
    obtain ⟨before, trail, spelt, segments⟩ := Path.segments_extend nonempty
    rw [spelt.segments] at located
    have extended : (t.locateSegments (p.extend (n :: r)) (before ++ (n :: r).map FileName.bytes) = .ok x ∧
        t.lookup? x = some e) ↔ x = k ++ (n :: r) ∧ t.lookup? x = some e := by
      rw [locateSegments, origin, Path.isAbsolute_extend nonempty, ← origin]
      let P (y : Except Missing Route) : Prop :=
        (y = .ok x ∧ t.lookup? x = some e) ↔ x = k ++ (n :: r) ∧ t.lookup? x = some e
      have down (f) : P (t.descend f k ((n :: r).map FileName.bytes)) := descend_names clear f x e
      exact descend_append (P := P) spelt.trail hk down (follow_append spelt.trail hk down linkLimit) located
    rw [← extended, locate_eq_ok_iff, segments, hasNul_extend nonempty plain, noNul]
    simp [Path.bytes_extend_ne_nil nonempty]

end Tree
end StyleFeed
