import StyleFeed.Proofs.Naming

/-!
Where a path leads, if it leads to something. That does not depend on how it is spelt (`Tree.resolve_steps`), nor
does it change when directories come into being (`Tree.locateSegments_grows`). A path that goes on from the root by
names leads to the route that they spell, as long as there are no links on the way (`Root.Leads.eq_append`).
-/

namespace StyleFeed

namespace Component

/-- How the component is spelt; where a path begins is not spelt by a segment. -/
def segment : Component → Bytes
  | .root | .here => []
  | .parent => [dot, dot]
  | .name n => n.bytes

/-- Whether the component says where a path begins. -/
def isStart : Component → Bool
  | .root | .here => true
  | .parent | .name _ => false

theorem segment_of_ofSegment? {s : Bytes} {c : Component} (h : ofSegment? s = some c) : c.segment = s := by
  unfold ofSegment? at h
  split at h
  · rename_i up
    cases h
    exact up.symm
  · obtain ⟨n, found, rfl⟩ := Option.map_eq_some_iff.mp h
    exact FileName.ofBytes?_eq_some_iff.mp found

theorem isStart_of_ofSegment? {s : Bytes} {c : Component} (h : ofSegment? s = some c) : c.isStart = false := by
  unfold ofSegment? at h
  split at h
  · cases h
    rfl
  · obtain ⟨n, -, rfl⟩ := Option.map_eq_some_iff.mp h
    rfl

theorem ofSegment?_eq_none_iff {s : Bytes} : ofSegment? s = none ↔ s ≠ [dot, dot] ∧ FileName.ofBytes? s = none := by
  unfold ofSegment?
  split
  · simp [*]
  · simp [*]

end Component

namespace Path

/-- The components that are spelt by segments. -/
def steps (p : Path) : List Component := p.segments.filterMap Component.ofSegment?

theorem isStart_of_mem_steps {p : Path} {c : Component} (h : c ∈ p.steps) : c.isStart = false := by
  obtain ⟨s, -, found⟩ := List.mem_filterMap.mp h
  exact Component.isStart_of_ofSegment? found

theorem isStart_of_mem_start {p : Path} {c : Component} (h : c ∈ p.start) : c.isStart = true := by
  unfold start at h
  split at h
  · cases List.mem_singleton.mp h
    rfl
  · split at h
    · cases List.mem_singleton.mp h
      rfl
    · cases h

/-- Where a path begins can be told from its components, and so can what follows. -/
theorem start_inj {p q : Path} {l m : List Component} (hl : ∀ c ∈ l, c.isStart = false)
    (hm : ∀ c ∈ m, c.isStart = false) (h : p.start ++ l = q.start ++ m) : p.start = q.start ∧ l = m := by
  have cut (p : Path) {l : List Component} (hl : ∀ c ∈ l, c.isStart = false) :
      (p.start ++ l).filter Component.isStart = p.start := by
    rw [List.filter_append, List.filter_eq_self.mpr fun c mem => isStart_of_mem_start mem,
      List.filter_eq_nil_iff.mpr fun c mem => by simp [hl c mem], List.append_nil]
  have start : p.start = q.start := by rw [← cut p hl, h, cut q hm]
  rw [start] at h
  exact ⟨start, List.append_cancel_left h⟩

theorem isAbsolute_iff {p : Path} : p.isAbsolute ↔ p.start = [.root] := by
  unfold start
  split
  · simp [*]
  · split <;> simp [*]

end Path

namespace Tree

/-- Segments that are no components are left out. -/
inductive Slims : List Bytes → List Bytes → Prop
  | nil : Slims [] []
  | keep (s : Bytes) {a b : List Bytes} : Slims a b → Slims (s :: a) (s :: b)
  | drop {s : Bytes} {a b : List Bytes} : Component.ofSegment? s = none → Slims a b → Slims (s :: a) b

theorem Slims.append_left (before : List Bytes) {a b : List Bytes} (h : Slims a b) :
    Slims (before ++ a) (before ++ b) := by
  induction before with
  | nil => exact h
  | cons s before ih => exact .keep s ih

theorem Slims.refl (segments : List Bytes) : Slims segments segments := by
  have whole := Slims.append_left segments .nil
  rwa [List.append_nil] at whole

theorem slims_segments (segments : List Bytes) :
    Slims segments ((segments.filterMap Component.ofSegment?).map Component.segment) := by
  induction segments with
  | nil => exact .nil
  | cons s rest ih =>
    cases found : Component.ofSegment? s with
    | none =>
      rw [List.filterMap_cons_none found]
      exact .drop found ih
    | some c =>
      rw [List.filterMap_cons_some found, List.map_cons, Component.segment_of_ofSegment? found]
      exact .keep s ih

/-- No name has a NUL byte, which none has in a file system. -/
def NulFree (t : Tree) : Prop := ∀ r e, t.lookup? r = some e → ∀ n ∈ r, 0 ∉ n.bytes

theorem nulFree_iff {t : Tree} : t.NulFree ↔ ∀ x ∈ t.entries, ∀ n ∈ x.1, 0 ∉ n.bytes := by
  constructor
  · intro free x mem
    exact free x.1 x.2 (lookup?_eq_some_iff.mpr (.inr mem))
  · intro free r e here
    rcases lookup?_eq_some_iff.mp here with ⟨rfl, -⟩ | mem
    · intro n mem
      cases mem
    · exact free (r, e) mem

instance (t : Tree) : Decidable t.NulFree := decidable_of_iff _ nulFree_iff.symm

/-- Directories have come into being where nothing was, with names that a file system allows. -/
structure Grows (t t' : Tree) : Prop where
  workplace : t'.workplace = t.workplace
  kept : ∀ r e, t.lookup? r = some e → t'.lookup? r = some e
  fresh : ∀ r e, t'.lookup? r = some e → t.lookup? r = some e ∨ e = .directory
  noNul : t.NulFree → t'.NulFree

namespace Grows

variable {t t' t'' : Tree}

theorem refl (t : Tree) : Grows t t := ⟨rfl, fun _ _ h => h, fun _ _ h => .inl h, id⟩

theorem trans (first : Grows t t') (second : Grows t' t'') : Grows t t'' where
  workplace := second.workplace.trans first.workplace
  kept r e h := second.kept r e (first.kept r e h)
  fresh r e h := by
    rcases second.fresh r e h with h | h
    · exact first.fresh r e h
    · exact .inr h
  noNul h := second.noNul (first.noNul h)

theorem lookup?_eq_file_iff (grows : Grows t t') {r : Route} {b : Bytes} :
    t'.lookup? r = some (.file b) ↔ t.lookup? r = some (.file b) := by
  constructor
  · intro h
    rcases grows.fresh r _ h with h | h
    · exact h
    · cases h
  · exact grows.kept r _

end Grows

variable {t t' : Tree} {x : Route} {e : Entry}

/-- What a way leads to it leads to when it is spelt otherwise, and when directories have come into being. -/
theorem descend_grows {f f' : Route → Path → List Bytes → Except Missing Route} (grows : Grows t t')
    (there : t.lookup? x = some e)
    (follows : ∀ r target a b, Slims a b → f r target a = .ok x → f' r target b = .ok x) {a b : List Bytes}
    (slims : Slims a b) {o : Route} (h : t.descend f o a = .ok x) : t'.descend f' o b = .ok x := by
  induction slims generalizing o with
  | nil => exact h
  | drop found _ ih =>
    -- a segment that names nothing leaves the way in the same directory
    obtain ⟨notUp, noName⟩ := Component.ofSegment?_eq_none_iff.mp found
    rw [descend, if_neg notUp, noName] at h
    split at h
    · cases h
    · exact ih h
  | keep s slims ih =>
    rw [descend] at h ⊢
    split at h
    · cases h
    rename_i inside
    have inside' : t'.isDirectoryAt o = true := by
      have directory : t.lookup? o = some .directory := by simpa [isDirectoryAt] using inside
      rw [isDirectoryAt, grows.kept o _ directory, BEq.rfl]
    rw [inside', Bool.not_true, if_neg Bool.false_ne_true]
    split at h
    · rw [if_pos ‹_›]
      exact ih h
    rw [if_neg ‹_›]
    split at h
    · exact ih h
    split at h
    · rename_i free
      split at h
      · -- what the whole way leads to is not free
        cases h
        rw [free] at there
        cases there
      · cases h
    · rename_i link
      rw [grows.kept _ _ link]
      exact follows _ _ _ _ slims h
    · rename_i entry other found
      rw [grows.kept _ _ found]
      cases entry with
      | link target => exact absurd rfl (other target)
      | file b => exact ih h
      | directory => exact ih h

theorem follow_grows (grows : Grows t t') (there : t.lookup? x = some e) (links : Nat) (r : Route) (target : Path)
    (a b : List Bytes) (slims : Slims a b) (h : t.follow links r target a = .ok x) :
    t'.follow links r target b = .ok x := by
  induction links generalizing r target a b with
  | zero => cases h
  | succ links ih => exact descend_grows grows there ih (slims.append_left target.segments) h

theorem locateSegments_grows (grows : Grows t t') (there : t.lookup? x = some e) {p : Path} {a b : List Bytes}
    (slims : Slims a b) (h : t.locateSegments p a = .ok x) : t'.locateSegments p b = .ok x := by
  rw [locateSegments, grows.workplace]
  exact descend_grows grows there (follow_grows grows there linkLimit) slims h

/-- A path that leads to something leads there by its components. -/
theorem resolve_steps {p : Path} (h : t.resolve p = .ok (x, e)) :
    t.locateSegments p (p.steps.map Component.segment) = .ok x := by
  obtain ⟨located, there⟩ := resolve_eq_ok_iff.mp h
  obtain ⟨-, -, down⟩ := locate_eq_ok_iff.mp located
  exact locateSegments_grows (.refl t) there (slims_segments p.segments) down

end Tree

/-- However the path is spelt, it leads where its names do. -/
theorem Root.Leads.eq_append {root : Root} {r top x : Route} {p : Path} {t : Tree} {e : Entry}
    (leads : root.Leads r p) (directory : t.resolve root.path = .ok (top, .directory)) (clear : t.Clear top r)
    (h : t.resolve p = .ok (x, e)) : x = top ++ r := by
  have whole := List.isPrefixOf?_eq_some_iff_append_eq.mp leads
  rw [Path.components, Path.components, List.append_assoc] at whole
  have names : ∀ c ∈ root.path.steps ++ r.map Component.name, c.isStart = false := by
    intro c mem
    rcases List.mem_append.mp mem with mem | mem
    · exact Path.isStart_of_mem_steps mem
    · obtain ⟨n, -, rfl⟩ := List.mem_map.mp mem
      rfl
  obtain ⟨start, steps⟩ := Path.start_inj names (fun c => Path.isStart_of_mem_steps) whole
  have absolute : p.isAbsolute = root.path.isAbsolute := by
    rw [Bool.eq_iff_iff, Path.isAbsolute_iff, Path.isAbsolute_iff, start]
  have names : (r.map Component.name).map Component.segment = r.map FileName.bytes := List.map_map
  have there := (Tree.resolve_eq_ok_iff.mp h).2
  have above := Tree.resolve_steps directory
  have down := Tree.resolve_steps h
  rw [Tree.locateSegments, Tree.origin, absolute, ← Tree.origin, ← steps, List.map_append, names] at down
  rw [Tree.locateSegments, ← List.append_nil (root.path.steps.map _)] at above
  -- both ways begin alike, so the longer one comes through the top, or its links do
  let P (y : Except Tree.Missing Route) : Prop := y = .ok x → x = top ++ r
  have below (f) : P (t.descend f top (r.map FileName.bytes)) :=
    fun found => ((Tree.descend_names clear f x e).mp ⟨found, there⟩).1
  have inside := (Tree.resolve_eq_ok_iff.mp directory).2
  exact Tree.descend_append (P := P) (.inl rfl) inside below
    (Tree.follow_append (.inl rfl) inside below Tree.linkLimit) above down

end StyleFeed
