import StyleFeed.Proofs.Places
import StyleFeed.Proofs.Ways

/-!
What a style sheet is called leads back to it: `Root.name_leads_home`. All that its path has below the root is names
then, so that it is one of the paths that a route of names leads to (`Root.descends_iff_covers`).
-/

namespace StyleFeed

namespace Path

variable {p q : Path} {rest : List Component}

theorem components_of_isAbsolute (absolute : p.isAbsolute) : p.components = .root :: p.steps := by
  rw [components, isAbsolute_iff.mp absolute]
  rfl

/-- Nothing begins below an absolute path. -/
theorem isStart_of_below (absolute : q.isAbsolute) (below : p.components = q.components ++ rest) :
    ∀ c ∈ rest, c.isStart = false := by
  intro c mem
  rw [components_of_isAbsolute absolute, List.cons_append] at below
  have split : p.start ++ p.steps = .root :: (q.steps ++ rest) := below
  apply isStart_of_mem_steps (p := p)
  rcases List.append_eq_cons_iff.mp split with ⟨-, steps⟩ | ⟨later, start, tail⟩
  · -- the path begins where the other one does, which no segment spells
    have first : (.root : Component) ∈ p.steps := steps ▸ List.mem_cons_self
    cases isStart_of_mem_steps first
  · have alone : later = [] := by
      unfold Path.start at start
      split at start
      · exact (List.cons.inj start).2.symm
      · split at start <;> cases start
    rw [alone, List.nil_append] at tail
    rw [← tail]
    exact List.mem_append_right q.steps mem

end Path

/-- What does not begin anew and goes down only is names. -/
theorem Component.exists_map_name {cs : List Component} (steps : ∀ c ∈ cs, c.isStart = false) (down : .parent ∉ cs) :
    ∃ r : Route, cs = r.map .name := by
  induction cs with
  | nil => exact ⟨[], rfl⟩
  | cons c cs ih =>
    obtain ⟨step, steps⟩ := List.forall_mem_cons.mp steps
    obtain ⟨notUp, down⟩ := not_or.mp fun up => down (List.mem_cons.mpr up)
    obtain ⟨r, rfl⟩ := ih steps down
    cases c with
    | root | here => cases step
    | parent => exact absurd rfl notUp
    | name n => exact ⟨n :: r, rfl⟩

namespace Root

variable {root : Root} {p q : Path}

/-- Below the root the path does not go up again, and its names are text. -/
def Descends (root : Root) (p : Path) : Prop :=
  ∃ rest, p.components = root.path.components ++ rest ∧ .parent ∉ rest ∧ ∀ n, .name n ∈ rest → n.IsText

theorem descends_iff_covers (absolute : root.path.isAbsolute) : root.Descends p ↔ root.Covers p := by
  constructor
  · rintro ⟨rest, below, down, text⟩
    obtain ⟨r, rfl⟩ := Component.exists_map_name (Path.isStart_of_below absolute below) down
    refine ⟨r, Path.below?_eq_some_iff.mpr below.symm, ?_⟩
    exact fun n mem => text n (List.mem_map_of_mem mem)
  · rintro ⟨r, leads, plain⟩
    refine ⟨r.map .name, (Path.below?_eq_some_iff.mp leads).symm, by simp, ?_⟩
    intro n mem
    obtain ⟨m, mem, same⟩ := List.mem_map.mp mem
    exact Component.name.inj same ▸ plain m mem

/-- A style sheet is called what its path is below the root, but for the extension. If that path goes down only and by
names that are text, then to join the root with the name and the extension is to spell the path, and so no other style
sheet on such a path has that name. The root has to be absolute, as below an empty one a path may begin with a dot. -/
theorem name_leads_home (absolute : root.path.isAbsolute) (sheet : root.isSheet p) :
    ∃ n, root.name p = .ok n ∧ root.relativeName p = .ok (n ++ ".css") ∧
      (root.Descends p → (root.path.join (.ofString (n ++ ".css"))).same p ∧
        ∀ q, root.isSheet q → root.Descends q → (root.name q = .ok n ↔ q.same p)) := by
  obtain ⟨r, isSheet, named, whole⟩ := exists_route_of_isSheet sheet
  refine ⟨r.logicalName, named, ?_, ?_⟩
  · rw [whole, Route.logicalName_append isSheet]
  intro descends
  obtain ⟨s, leads, plain⟩ := (descends_iff_covers absolute).mp descends
  have isSheet : s.IsSheet := leads.isSheet_iff.mp sheet
  have same : r.logicalName = s.logicalName := Except.ok.inj (named.symm.trans leads.name)
  rw [same]
  constructor
  · exact ((leads_home isSheet plain).same_iff leads).mpr rfl
  · intro q sheet' descends'
    obtain ⟨s', leads', plain'⟩ := (descends_iff_covers absolute).mp descends'
    rw [leads'.name, leads'.same_iff leads, Except.ok.injEq]
    constructor
    · exact Route.logicalName_injective (leads'.isSheet_iff.mp sheet') isSheet plain' plain
    · exact congrArg Route.logicalName

/-! A style sheet with more than one dot in its name, in a directory that has one in its own. -/
namespace SeveralDots

def watched : Root := ⟨.ofString "/s"⟩

def sheet : Path := .ofString "/s//a/./b.v2/c.min.css/"

def straight : Path := .ofString "/s/a/b.v2/c.min.css"

theorem spelt_back : ∃ n, watched.name sheet = .ok n ∧ watched.relativeName sheet = .ok (n ++ ".css") ∧
    (watched.path.join (.ofString (n ++ ".css"))).same sheet ∧
    (watched.name straight = .ok n ↔ straight.same sheet) := by
  have absolute : watched.path.isAbsolute := by decide +kernel
  have descends : watched.Descends sheet := (descends_iff_covers absolute).mpr (by decide +kernel)
  have descends' : watched.Descends straight := (descends_iff_covers absolute).mpr (by decide +kernel)
  obtain ⟨n, named, whole, back⟩ := name_leads_home absolute (p := sheet) (by decide +kernel)
  obtain ⟨same, alone⟩ := back descends
  exact ⟨n, named, whole, same, alone straight (by decide +kernel) descends'⟩

end SeveralDots

end Root
end StyleFeed
