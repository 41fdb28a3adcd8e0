import StyleFeed.Proofs.Called
import StyleFeed.Proofs.Sending

/-!
A tree whose style sheets can all be reported, and what the feed makes of it: `Watched.withContent`,
`Watched.mem_sheetRoutes`, `Watched.createdBelow`.
-/

namespace StyleFeed

open Message (Fits)

/-- The root leads to a directory; at and below it there are no links, all names are text, and all style
sheets are text that may be sent. -/
structure Watched (root : Root) (top : Route) (limit : Nat) (t : Tree) : Prop where
  leads : t.resolve root.path = .ok (top, .directory)
  linkless : t.Linkless top
  plain : ∀ (r : Route) e, t.lookup? (top ++ r) = some e → r.Plain
  noNul : ∀ r e, t.lookup? (top ++ r) = some e → ∀ n ∈ r, 0 ∉ n.bytes
  fits : ∀ r b, root.isSheet (root.path.extend r) → t.lookup? (top ++ r) = some (.file b) →
    ∃ name c, root.name (root.path.extend r) = .ok name ∧ Utf8.decode? b = some c ∧
      Fits limit (.modified name c)

/-- The entry is no link, and a style sheet that is a file may be sent. -/
def Root.reports (root : Root) (limit : Nat) (r : Route) : Entry → Bool
  | .directory => true
  | .link _ => false
  | .file b => !root.isSheet (root.path.extend r) || (Utf8.decode? b).any fun c =>
      (root.name (root.path.extend r)).toOption.any fun name => Fits limit (.modified name c)

/-- What is asked of a tree can be looked up entry by entry. -/
theorem watched_iff {root : Root} {top : Route} {limit : Nat} {t : Tree} :
    Watched root top limit t ↔ t.resolve root.path = .ok (top, .directory) ∧
      ∀ x ∈ t.grafted top [], x.1.Plain ∧ (∀ n ∈ x.1, 0 ∉ n.bytes) ∧ root.reports limit x.1 x.2 := by
  have mem {r : Route} {e : Entry} : (r, e) ∈ t.grafted top [] ↔ (top ++ r, e) ∈ t.entries := by
    simp [Tree.mem_grafted]
  constructor
  · intro w
    refine ⟨w.leads, ?_⟩
    rintro ⟨r, e⟩ hx
    have here := Tree.lookup?_eq_some_iff.mpr (.inr (mem.mp hx))
    refine ⟨w.plain r e here, w.noNul r e here, ?_⟩
    cases e with
    | directory => rfl
    | link target => exact absurd here (w.linkless r target)
    | file b =>
      by_cases sheet : root.isSheet (root.path.extend r)
      · obtain ⟨name, c, named, decoded, fits⟩ := w.fits r b sheet here
        simp [Root.reports, named, decoded, fits, Except.toOption]
      · simp [Root.reports, sheet]
  · rintro ⟨leads, asked⟩
    have entry {r : Route} {e : Entry} (here : t.lookup? (top ++ r) = some e) :
        (r = [] ∧ e = .directory) ∨ (r.Plain ∧ (∀ n ∈ r, 0 ∉ n.bytes) ∧ root.reports limit r e) := by
      rcases Tree.lookup?_eq_some_iff.mp here with ⟨nothing, rfl⟩ | hm
      · exact .inl ⟨(List.append_eq_nil_iff.mp nothing).2, rfl⟩
      · exact .inr (asked _ (mem.mpr hm))
    constructor
    · exact leads
    · intro r target here
      rcases entry here with ⟨-, other⟩ | ⟨-, -, refused⟩
      · cases other
      · cases refused
    · intro r e here
      rcases entry here with ⟨rfl, -⟩ | ⟨plain, -⟩
      · exact List.forall_mem_nil _
      · exact plain
    · intro r e here
      rcases entry here with ⟨rfl, -⟩ | ⟨-, noNul, -⟩
      · exact List.forall_mem_nil _
      · exact noNul
    · intro r b sheet here
      rcases entry here with ⟨-, other⟩ | ⟨-, -, sent⟩
      · cases other
      · simp only [Root.reports, sheet, Bool.not_true, Bool.false_or, Option.any_eq_true] at sent
        obtain ⟨c, decoded, name, named, fits⟩ := sent
        refine ⟨name, c, ?_, decoded, of_decide_eq_true fits⟩
        cases hn : root.name (root.path.extend r) with
        | ok n =>
          rw [hn] at named
          rw [Option.some.inj named]
        | error fault =>
          rw [hn] at named
          cases named

instance (root : Root) (top : Route) (limit : Nat) (t : Tree) : Decidable (Watched root top limit t) :=
  decidable_of_iff _ watched_iff.symm

/-- The contents of the style sheets below a route. -/
def Tree.cabinet (t : Tree) (top : Route) : Cabinet := fun r =>
  if r.IsSheet then
    match t.lookup? (top ++ r) with
    | some (.file b) => Utf8.decode? b
    | _ => none
  else none

namespace Tree

variable {t t' : Tree} {top r s : Route} {c : String} {b : Bytes}

theorem cabinet_of_file (sheet : r.IsSheet) (h : t.lookup? (top ++ r) = some (.file b)) :
    t.cabinet top r = Utf8.decode? b := by
  rw [cabinet, if_pos sheet, h]

theorem cabinet_of_not_sheet (h : ¬ r.IsSheet) : t.cabinet top r = none := if_neg h

theorem cabinet_of_not_file (h : ∀ b, t.lookup? (top ++ r) ≠ some (.file b)) : t.cabinet top r = none := by
  unfold cabinet
  split
  · split
    · rename_i b hb
      exact absurd hb (h b)
    · rfl
  · rfl

theorem cabinet_eq_some (h : t.cabinet top r = some c) :
    r.IsSheet ∧ ∃ b, t.lookup? (top ++ r) = some (.file b) ∧ Utf8.decode? b = some c := by
  unfold cabinet at h
  split at h
  · rename_i sheet
    split at h
    · rename_i b hb
      exact ⟨sheet, b, hb, h⟩
    · cases h
  · cases h

/-- The content of a style sheet depends on what stands at its route, and on nothing else. -/
theorem cabinet_congr (h : t'.lookup? (top ++ r) = t.lookup? (top ++ r)) :
    t'.cabinet top r = t.cabinet top r := by
  rw [cabinet, cabinet, h]

end Tree

namespace Watched

variable {root : Root} {top : Route} {limit : Nat} {t : Tree} {r : Route} {e : Entry} {b : Bytes} {c : String}

theorem isSheet_iff (_ : Watched root top limit t) (r : Route) :
    root.isSheet (root.path.extend r) ↔ r.IsSheet :=
  (Root.leads_extend root r).isSheet_iff

theorem isSheet (_ : Watched root top limit t) (r : Route) :
    root.isSheet (root.path.extend r) = decide r.IsSheet :=
  (Root.leads_extend root r).isSheet

theorem name (_ : Watched root top limit t) (r : Route) : root.name (root.path.extend r) = .ok r.logicalName :=
  (Root.leads_extend root r).name

section
variable (w : Watched root top limit t)
include w

theorem located : t.locate root.path = .ok top ∧ t.lookup? top = some .directory :=
  Tree.resolve_eq_ok_iff.mp w.leads

theorem resolve (h : t.lookup? (top ++ r) = some e) :
    t.resolve (root.path.extend r) = .ok (top ++ r, e) :=
  (Tree.resolve_extend w.located.1 w.located.2 (w.linkless.clear r) (w.noNul r e h)).mpr ⟨rfl, h⟩

theorem isDirectory_iff (h : t.lookup? (top ++ r) = some e) :
    t.isDirectory (root.path.extend r) ↔ e = .directory := by
  rw [Tree.isDirectory, w.resolve h]
  cases e <;> simp

/-- A style sheet that can be reported. -/
theorem cabinet_file (sheet : r.IsSheet) (h : t.lookup? (top ++ r) = some (.file b)) :
    ∃ c, t.cabinet top r = some c := by
  obtain ⟨_, c, -, decoded, -⟩ := w.fits r b ((w.isSheet_iff r).mpr sheet) h
  exact ⟨c, by rw [Tree.cabinet_of_file sheet h, decoded]⟩

theorem fits_of_cabinet (h : t.cabinet top r = some c) : Fits limit (.modified r.logicalName c) := by
  obtain ⟨sheet, b, hb, decoded⟩ := Tree.cabinet_eq_some h
  obtain ⟨name, c', hname, decoded', fits⟩ := w.fits r b ((w.isSheet_iff r).mpr sheet) hb
  rw [w.name] at hname
  rw [decoded] at decoded'
  cases hname
  cases decoded'
  exact fits

theorem plain_of_cabinet (h : t.cabinet top r = some c) : r.IsSheet ∧ r.Plain := by
  obtain ⟨sheet, b, hb, -⟩ := Tree.cabinet_eq_some h
  exact ⟨sheet, w.plain r _ hb⟩

theorem mem_sheetRoutes (h : t.lookup? (top ++ r) = some .directory) {x : Route} :
    x ∈ t.sheetRoutes root (root.path.extend r) ↔ ∃ c, t.cabinet top (r ++ x) = some c := by
  rw [Tree.sheetRoutes, List.mem_filter, Tree.mem_walk (w.resolve h), ← Path.extend_append,
    w.isSheet_iff, List.append_assoc]
  constructor
  · rintro ⟨⟨-, -, b, hb⟩, sheet⟩
    exact w.cabinet_file sheet hb
  · rintro ⟨c, hc⟩
    obtain ⟨sheet, b, hb, -⟩ := Tree.cabinet_eq_some hc
    refine ⟨⟨?_, ?_, b, hb⟩, sheet⟩
    · rintro rfl
      rw [List.append_nil] at hb
      rw [h] at hb
      cases hb
    · have := sheet.git_notMem
      exact fun hx => this (List.mem_append_right r hx)

theorem readText (h : t.cabinet top r = some c) : t.readText (root.path.extend r) = .ok c := by
  obtain ⟨-, b, hb, decoded⟩ := Tree.cabinet_eq_some h
  exact Tree.readText_eq_ok_iff.mpr ⟨top ++ r, b, w.resolve hb, decoded⟩

variable {f : Feed} (hf : f.root = root)
include hf

theorem withContent (h : t.cabinet top r = some c) (build : String → String → Message) :
    f.withContent t (root.path.extend r) build = .ok (some (build r.logicalName c)) := by
  rw [Feed.withContent, hf, w.name, w.readText h]
  rfl

/-- The style sheets below a directory, each with its content. -/
theorem createdBelow (h : t.lookup? (top ++ r) = some .directory) :
    f.createdBelow t (root.path.extend r) =
      .ok ((t.sheetRoutes root (root.path.extend r)).map fun x =>
        .created (Route.logicalName (r ++ x)) ((t.cabinet top (r ++ x)).getD "")) := by
  have each : ∀ x ∈ t.sheetRoutes root (root.path.extend r), f.report? t ((root.path.extend r).extend x) =
      some (.created (Route.logicalName (r ++ x)) ((t.cabinet top (r ++ x)).getD "")) := by
    intro x hx
    obtain ⟨c, hc⟩ := (w.mem_sheetRoutes h).mp hx
    rw [← Path.extend_append, Feed.report?_eq_some_iff, hf, hc]
    exact ⟨_, c, w.name _, w.readText hc, rfl⟩
  rw [Feed.createdBelow_eq, Feed.reports, Tree.sheets, hf, List.filterMap_map, ← List.filterMap_eq_map]
  exact congrArg Except.ok (List.filterMap_congr each)

end
end Watched

end StyleFeed
