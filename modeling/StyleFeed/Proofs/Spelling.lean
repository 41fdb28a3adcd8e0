import Mathlib.Logic.Relation
import StyleFeed.Proofs.Ways

/-!
How a path may be spelt: with more than one slash between names, with slashes at its end, and with single dots that it
does not begin with. Two paths have the same components just if they differ in this alone (`Path.same_iff_respelt`).
-/

namespace StyleFeed
namespace Path

/-- A byte string, and one that is shorter by a slash or a dot which says nothing. -/
inductive Shortens : Bytes → Bytes → Prop
  | doubled (a b : Bytes) : Shortens (a ++ slash :: slash :: b) (a ++ slash :: b)
  | between (a b : Bytes) : Shortens (a ++ slash :: dot :: slash :: b) (a ++ slash :: b)
  | dotAtEnd (a : Bytes) : Shortens (a ++ [slash, dot]) (a ++ [slash])
  | slashAtEnd {a : Bytes} : a ≠ [] → Shortens (a ++ [slash]) a

/-- The paths differ by slashes and dots that say nothing. -/
def Respelt (p q : Path) : Prop := Relation.EqvGen Shortens p.bytes q.bytes

/-! ## Components do not depend on the spelling -/

theorem components_eq_of_segments {p q : Path} (absolute : p.isAbsolute = q.isAbsolute)
    (first : p.segments.head? = q.segments.head?) (steps : p.steps = q.steps) : p.components = q.components := by
  have start : p.start = q.start := by rw [start, start, absolute, first]
  rw [components, components, start]
  exact congrArg _ steps

@[simp]
theorem steps_append_slash (a b : Bytes) :
    steps ⟨a ++ slash :: b⟩ = steps ⟨a⟩ ++ steps ⟨b⟩ := by
  rw [steps, segments, List.splitOn_append_cons_self, List.filterMap_append]
  rfl

@[simp]
theorem steps_nil : steps ⟨[]⟩ = [] := by decide

@[simp]
theorem steps_dot : steps ⟨[dot]⟩ = [] := by decide

@[simp]
theorem steps_slash (b : Bytes) : steps ⟨slash :: b⟩ = steps ⟨b⟩ := by
  rw [← List.nil_append (slash :: b), steps_append_slash, steps_nil, List.nil_append]

@[simp]
theorem steps_dot_slash (b : Bytes) : steps ⟨dot :: slash :: b⟩ = steps ⟨b⟩ := by
  rw [← List.singleton_append, steps_append_slash, steps_dot, List.nil_append]

@[simp]
theorem head?_segments_append_slash (a b : Bytes) :
    (segments ⟨a ++ slash :: b⟩).head? = (segments ⟨a⟩).head? := by
  rw [segments, List.splitOn_append_cons_self, List.head?_append_of_ne_nil _ (List.splitOn_ne_nil slash a)]
  rfl

theorem isAbsolute_append_slash (a b c : Bytes) :
    isAbsolute ⟨a ++ slash :: b⟩ = isAbsolute ⟨a ++ slash :: c⟩ := by
  cases a <;> rfl

theorem isAbsolute_append {a : Bytes} (nonempty : a ≠ []) (b : Bytes) : isAbsolute ⟨a ++ b⟩ = isAbsolute ⟨a⟩ := by
  obtain ⟨x, rest, rfl⟩ := List.exists_cons_of_ne_nil nonempty
  rfl

theorem components_of_shortens {a b : Bytes} (h : Shortens a b) :
    components ⟨a⟩ = components ⟨b⟩ := by
  cases h with
  | doubled a b => exact components_eq_of_segments (isAbsolute_append_slash ..) (by simp) (by simp)
  | between a b => exact components_eq_of_segments (isAbsolute_append_slash ..) (by simp) (by simp)
  | dotAtEnd a => exact components_eq_of_segments (isAbsolute_append_slash ..) (by simp) (by simp)
  | slashAtEnd nonempty => exact components_eq_of_segments (isAbsolute_append nonempty _) (by simp) (by simp)

theorem Respelt.components_eq {p q : Path} (h : p.Respelt q) : p.components = q.components := by
  obtain ⟨a⟩ := p
  obtain ⟨b⟩ := q
  change Relation.EqvGen Shortens a b at h
  induction h with
  | rel a b step => exact components_of_shortens step
  | refl a => rfl
  | symm a b _ ih => exact ih.symm
  | trans a b c _ _ first second => exact first.trans second

/-! ## Components have one spelling of their own -/

/-- The segments, each after a slash. -/
def trail (segments : List Bytes) : Bytes := segments.flatMap (slash :: ·)

theorem trail_cons (s : Bytes) (rest : List Bytes) : trail (s :: rest) = slash :: (s ++ trail rest) :=
  List.flatMap_cons

theorem intercalate_slash (first : Bytes) (rest : List Bytes) :
    [slash].intercalate (first :: rest) = first ++ trail rest := by
  induction rest generalizing first with
  | nil => simp [trail]
  | cons s rest ih => rw [List.intercalate_cons_cons, ih, trail_cons, List.append_assoc, List.singleton_append]

theorem exists_segments (p : Path) : ∃ first rest, p.segments = first :: rest ∧ p.bytes = first ++ trail rest := by
  obtain ⟨first, rest, split⟩ := List.exists_cons_of_ne_nil (List.splitOn_ne_nil slash p.bytes)
  refine ⟨first, rest, split, ?_⟩
  rw [← intercalate_slash, ← split, List.intercalate_splitOn]

theorem slash_notMem_of_mem_splitOn {b s : Bytes} (h : s ∈ b.splitOn slash) : slash ∉ s := by
  induction b generalizing s with
  | nil =>
    rw [List.splitOn_nil, List.mem_singleton] at h
    rw [h]
    exact List.not_mem_nil
  | cons x b ih =>
    rw [List.splitOn_cons_eq_if_modifyHead] at h
    split at h
    · rcases List.mem_cons.mp h with rfl | h
      · exact List.not_mem_nil
      · exact ih h
    · rename_i other
      obtain ⟨first, rest, split⟩ := List.exists_cons_of_ne_nil (List.splitOn_ne_nil slash b)
      rw [split] at h ih
      rcases List.mem_cons.mp h with rfl | h
      · have here := ih List.mem_cons_self
        rw [List.mem_cons, not_or]
        exact ⟨fun same => other (beq_iff_eq.mpr same.symm), here⟩
      · exact ih (List.mem_cons_of_mem _ h)

theorem eq_of_ofSegment?_eq_none {s : Bytes} (plain : slash ∉ s) (h : Component.ofSegment? s = none) :
    s = [] ∨ s = [dot] := by
  obtain ⟨notUp, noName⟩ := Component.ofSegment?_eq_none_iff.mp h
  by_contra other
  obtain ⟨nonempty, notDot⟩ := not_or.mp other
  have name := FileName.ofBytes?_eq_some_iff (n := ⟨s, nonempty, plain, notDot, notUp⟩).mpr rfl
  rw [noName] at name
  cases name

theorem isStart_of_mem_filterMap {segments : List Bytes} :
    ∀ c ∈ segments.filterMap Component.ofSegment?, c.isStart = false := by
  intro c mem
  obtain ⟨s, -, found⟩ := List.mem_filterMap.mp mem
  exact Component.isStart_of_ofSegment? found

/-- The path with a component after it. -/
def put (p : Path) : Component → Path
  | .root => ⟨[slash]⟩
  | .here => p.join ⟨[dot]⟩
  | .parent => p.join ⟨[dot, dot]⟩
  | .name n => p.child n

theorem ofComponents_eq (cs : List Component) : ofComponents cs = cs.foldl put ⟨[]⟩ := rfl

theorem segment_spec {c : Component} (step : c.isStart = false) : c.segment ≠ [] ∧ slash ∉ c.segment := by
  cases c with
  | root | here => cases step
  | parent => decide
  | name n => exact ⟨n.ne_nil, n.slash_notMem⟩

/-- What is put after the bytes has to come after a slash. -/
def Open (b : Bytes) : Prop := b ≠ [] ∧ b.getLast? ≠ some slash

theorem open_append (b : Bytes) {c : Component} (step : c.isStart = false) : Open (b ++ c.segment) := by
  obtain ⟨name, plain⟩ := segment_spec step
  refine ⟨by simp [name], ?_⟩
  rw [List.getLast?_append_of_ne_nil _ name]
  exact fun last => plain (List.mem_of_getLast? last)

theorem bytes_put (p : Path) {c : Component} (step : c.isStart = false) :
    (p.put c).bytes =
      if p.bytes = [] ∨ p.bytes.getLast? = some slash then p.bytes ++ c.segment
      else p.bytes ++ slash :: c.segment := by
  have joined : p.put c = p.join ⟨c.segment⟩ := by
    cases c with
    | root | here => cases step
    | parent | name n => rfl
  have relative : isAbsolute ⟨c.segment⟩ = false := by
    simp only [isAbsolute, beq_eq_false_iff_ne]
    exact fun first => (segment_spec step).2 (List.mem_of_mem_head? first)
  rw [joined, join, relative, if_neg Bool.false_ne_true]
  split <;> rfl

/-- Components are spelt with a slash before each of them. -/
theorem bytes_foldl_put {p : Path} (isOpen : Open p.bytes) {cs : List Component}
    (steps : ∀ c ∈ cs, c.isStart = false) :
    (cs.foldl put p).bytes = p.bytes ++ trail (cs.map Component.segment) := by
  induction cs generalizing p with
  | nil => exact (List.append_nil _).symm
  | cons c cs ih =>
    obtain ⟨step, steps⟩ := List.forall_mem_cons.mp steps
    have here : (p.put c).bytes = p.bytes ++ [slash] ++ c.segment := by
      rw [bytes_put p step, if_neg (not_or.mpr isOpen), List.append_assoc]
      rfl
    rw [List.foldl_cons, ih (here ▸ open_append _ step) steps, here, List.map_cons, trail_cons, List.append_assoc,
      List.append_assoc]
    rfl

theorem bytes_ofComponents {c : Component} {cs : List Component} (step : c.isStart = false)
    (steps : ∀ c ∈ cs, c.isStart = false) :
    (ofComponents (c :: cs)).bytes = c.segment ++ trail (cs.map Component.segment) := by
  have first : (put ⟨[]⟩ c).bytes = c.segment := by rw [bytes_put _ step, if_pos (.inl rfl), List.nil_append]
  rw [ofComponents_eq, List.foldl_cons, bytes_foldl_put (first ▸ open_append [] step) steps, first]

theorem bytes_ofComponents_here {cs : List Component} (steps : ∀ c ∈ cs, c.isStart = false) :
    (ofComponents (.here :: cs)).bytes = dot :: trail (cs.map Component.segment) := by
  have first : put ⟨[]⟩ .here = ⟨[dot]⟩ := by decide
  rw [ofComponents_eq, List.foldl_cons, first, bytes_foldl_put ⟨by simp, by decide⟩ steps]
  rfl

theorem bytes_ofComponents_root {c : Component} {cs : List Component} (step : c.isStart = false)
    (steps : ∀ c ∈ cs, c.isStart = false) :
    (ofComponents (.root :: c :: cs)).bytes = trail ((c :: cs).map Component.segment) := by
  have first : (put ⟨[slash]⟩ c).bytes = [slash] ++ c.segment := by rw [bytes_put _ step, if_pos (.inr rfl)]
  rw [ofComponents_eq, List.foldl_cons, List.foldl_cons, put, bytes_foldl_put (first ▸ open_append [slash] step) steps,
    first, List.map_cons, trail_cons, List.append_assoc]
  rfl

/-! ## Every path can be respelt so -/

section
open Relation (EqvGen)

/-- After something, a segment that is no component says nothing. -/
theorem respelt_drop {a s : Bytes} (nonempty : a ≠ []) (nothing : s = [] ∨ s = [dot]) (rest : List Bytes) :
    EqvGen Shortens (a ++ trail (s :: rest)) (a ++ trail rest) := by
  have slashAtEnd : Shortens (a ++ [slash]) (a ++ trail []) := by
    rw [trail, List.flatMap_nil, List.append_nil]
    exact .slashAtEnd nonempty
  rcases nothing with rfl | rfl
  · cases rest with
    | nil => exact .rel _ _ slashAtEnd
    | cons t rest => exact .rel _ _ (.doubled a (t ++ trail rest))
  · cases rest with
    | nil => exact .trans _ _ _ (.rel _ _ (.dotAtEnd a)) (.rel _ _ slashAtEnd)
    | cons t rest => exact .rel _ _ (.between a (t ++ trail rest))

theorem respelt_trail {a : Bytes} (nonempty : a ≠ []) {rest : List Bytes} (plain : ∀ s ∈ rest, slash ∉ s) :
    EqvGen Shortens (a ++ trail rest) (a ++ trail ((rest.filterMap Component.ofSegment?).map Component.segment)) := by
  induction rest generalizing a with
  | nil => exact .refl _
  | cons s rest ih =>
    obtain ⟨here, plain⟩ := List.forall_mem_cons.mp plain
    cases found : Component.ofSegment? s with
    | some c =>
      have split (l : List Bytes) : a ++ trail (s :: l) = a ++ slash :: s ++ trail l := by
        rw [trail_cons, List.append_assoc, List.cons_append]
      rw [List.filterMap_cons_some found, List.map_cons, Component.segment_of_ofSegment? found, split, split]
      exact ih (by simp) plain
    | none =>
      rw [List.filterMap_cons_none found]
      exact .trans _ _ _ (respelt_drop nonempty (eq_of_ofSegment?_eq_none here found) rest) (ih nonempty plain)

/-- At the root a segment that is no component says nothing, but for the slash that it comes after. -/
theorem respelt_root {rest : List Bytes} (nonempty : rest ≠ []) (plain : ∀ s ∈ rest, slash ∉ s) :
    EqvGen Shortens (trail rest) (ofComponents (.root :: rest.filterMap Component.ofSegment?)).bytes := by
  induction rest with
  | nil => exact absurd rfl nonempty
  | cons s rest ih =>
    obtain ⟨here, plain⟩ := List.forall_mem_cons.mp plain
    cases found : Component.ofSegment? s with
    | some c =>
      rw [List.filterMap_cons_some found,
        bytes_ofComponents_root (Component.isStart_of_ofSegment? found) isStart_of_mem_filterMap, List.map_cons,
        Component.segment_of_ofSegment? found, trail_cons, trail_cons, ← List.cons_append, ← List.cons_append]
      exact respelt_trail (by simp) plain
    | none =>
      rw [List.filterMap_cons_none found]
      cases rest with
      | nil =>
        rcases eq_of_ofSegment?_eq_none here found with rfl | rfl
        · exact .refl _
        · exact .rel _ _ (.dotAtEnd [])
      | cons t rest =>
        refine .trans _ _ _ ?_ (ih (by simp) plain)
        rcases eq_of_ofSegment?_eq_none here found with rfl | rfl
        · exact .rel _ _ (.doubled [] (t ++ trail rest))
        · exact .rel _ _ (.between [] (t ++ trail rest))

end

/-- Any path can be respelt as its components, one after the other. -/
theorem respelt_ofComponents (p : Path) : p.Respelt (ofComponents p.components) := by
  obtain ⟨first, rest, segments, bytes⟩ := p.exists_segments
  obtain ⟨here, plain⟩ : slash ∉ first ∧ ∀ s ∈ rest, slash ∉ s :=
    List.forall_mem_cons.mp fun s mem => slash_notMem_of_mem_splitOn (segments ▸ mem)
  have absolute : p.isAbsolute = true ↔ first = [] ∧ rest ≠ [] := by
    rw [isAbsolute, bytes, beq_iff_eq]
    cases first with
    | nil => cases rest <;> simp [trail]
    | cons b first =>
      have other : b ≠ slash := fun same => here (same ▸ List.mem_cons_self)
      simp [other]
  rw [Respelt, components, start, segments, bytes]
  by_cases isAbsolute : p.isAbsolute
  · obtain ⟨rfl, nonempty⟩ := absolute.mp isAbsolute
    rw [if_pos isAbsolute, List.filterMap_cons_none Component.ofSegment?_nil]
    exact respelt_root nonempty plain
  rw [if_neg isAbsolute, List.head?_cons]
  cases found : Component.ofSegment? first with
  | some c =>
    have notDot : first ≠ [dot] := by
      rintro rfl
      cases found
    rw [if_neg (by simpa using notDot), List.filterMap_cons_some found, List.nil_append,
      bytes_ofComponents (Component.isStart_of_ofSegment? found) isStart_of_mem_filterMap,
      Component.segment_of_ofSegment? found]
    have nonempty : first ≠ [] := by
      rintro rfl
      cases found
    exact respelt_trail nonempty plain
  | none =>
    rw [List.filterMap_cons_none found]
    rcases eq_of_ofSegment?_eq_none here found with rfl | rfl
    · obtain rfl : rest = [] := by
        by_contra nonempty
        exact isAbsolute (absolute.mpr ⟨rfl, nonempty⟩)
      exact .refl _
    · rw [if_pos rfl, List.singleton_append, List.singleton_append,
        bytes_ofComponents_here isStart_of_mem_filterMap]
      exact respelt_trail (a := [dot]) (by simp) plain

/-- Two paths name one place just if they differ by slashes and dots that say nothing. -/
theorem same_iff_respelt {p q : Path} : p.same q ↔ p.Respelt q := by
  rw [same_iff]
  constructor
  · intro same
    have canonical := q.respelt_ofComponents
    rw [← same] at canonical
    exact .trans _ _ _ p.respelt_ofComponents (.symm _ _ canonical)
  · exact Respelt.components_eq

end Path
end StyleFeed
