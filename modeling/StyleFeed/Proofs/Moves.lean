import StyleFeed.Proofs.Called

/-!
What is said of a move, on any tree and with any names remembered:

* `Feed.move?_cases`: a file has a new name, or has lost its name, or is reported;
* `Feed.exists_movedDirectory`: in a directory that is said of each style sheet, and the names of the old place that
  none of them has had are taken back;
* `Feed.movedFile_of_leads`, `Feed.movedDirectory_of_leads`: each style sheet that can be read has moved or is reported.
-/

namespace StyleFeed
namespace Feed

variable (f : Feed) (t : Tree)

/-- All that can be said of a file that was moved. -/
theorem movedFile_cases (src dest : Path) :
    (f.root.isSheet src ∧ f.root.isSheet dest ∧ ∃ oldName newName, f.root.name src = .ok oldName ∧
      f.root.name dest = .ok newName ∧
      f.movedFile t src dest = .ok (if oldName = newName then none else some (.renamed oldName newName))) ∨
    (f.root.isSheet src ∧ f.root.isSheet dest = false ∧ ∃ name, f.root.name src = .ok name ∧
      f.movedFile t src dest = .ok (some (.deleted name))) ∨
    (f.root.isSheet src = false ∧ f.root.isSheet dest ∧ f.movedFile t src dest = .ok (f.report? t dest)) ∨
    (f.root.isSheet src = false ∧ f.root.isSheet dest = false ∧ f.movedFile t src dest = .ok none) := by
  rw [movedFile]
  cases sheet : f.root.isSheet src with
  | true =>
    obtain ⟨oldName, named⟩ := Root.name_of_isSheet sheet
    cases sheet' : f.root.isSheet dest with
    | true =>
      obtain ⟨newName, named'⟩ := Root.name_of_isSheet sheet'
      refine .inl ⟨rfl, rfl, oldName, newName, named, named', ?_⟩
      rw [named, named']
      rfl
    | false =>
      refine .inr (.inl ⟨rfl, rfl, oldName, named, ?_⟩)
      rw [named]
      rfl
  | false =>
    cases sheet' : f.root.isSheet dest with
    | true => exact .inr (.inr (.inl ⟨rfl, rfl, createdAt_of_isSheet sheet'⟩))
    | false => exact .inr (.inr (.inr ⟨rfl, rfl, rfl⟩))

/-- What is said of a file that was moved. -/
def move? (f : Feed) (t : Tree) (src dest : Path) : Option Message :=
  (f.movedFile t src dest).toOption.join

theorem movedFile_eq (src dest : Path) : f.movedFile t src dest = .ok (f.move? t src dest) := by
  rw [move?]
  rcases f.movedFile_cases t src dest with
    ⟨-, -, _, _, -, -, said⟩ | ⟨-, -, _, -, said⟩ | ⟨-, -, said⟩ | ⟨-, -, said⟩ <;> rw [said] <;> rfl

variable {f t}

theorem move?_congr {g : Feed} (h : g.root = f.root) : g.move? t = f.move? t := by
  funext src dest
  rw [move?, move?, movedFile, movedFile, createdAt, createdAt, withContent, withContent, h]

/-- A file that was moved has a new name, or it has lost its name, or it is reported. -/
theorem move?_cases {src dest : Path} {m : Message} (h : f.move? t src dest = some m) :
    (∃ oldName newName, f.root.isSheet src ∧ f.root.isSheet dest ∧ f.root.name src = .ok oldName ∧
      f.root.name dest = .ok newName ∧ oldName ≠ newName ∧ m = .renamed oldName newName) ∨
    (∃ name, f.root.isSheet src ∧ f.root.name src = .ok name ∧ m = .deleted name) ∨
    (f.root.isSheet src = false ∧ f.root.isSheet dest ∧ f.report? t dest = some m) := by
  rw [move?] at h
  rcases f.movedFile_cases t src dest with
    ⟨sheet, sheet', oldName, newName, named, named', said⟩ | ⟨sheet, -, name, named, said⟩ |
      ⟨boring, sheet', said⟩ | ⟨-, -, said⟩ <;> rw [said] at h
  · split at h
    · cases h
    · rename_i other
      exact .inl ⟨oldName, newName, sheet, sheet', named, named', other, (Option.some.inj h).symm⟩
  · exact .inr (.inl ⟨name, sheet, named, (Option.some.inj h).symm⟩)
  · exact .inr (.inr ⟨boring, sheet', h⟩)
  · cases h

variable (f t)

/-- Of a directory that was moved is said what is to be said of each style sheet in it, as of a file that was moved,
and then that the remembered names below its old place are gone which no style sheet has had. -/
theorem exists_movedDirectory (src dest : Path) : ∃ kept : List String,
    (∀ n, n ∈ kept ↔ ∃ x ∈ t.sheetRoutes f.root dest, f.root.isSheet (src.extend x) ∧
      f.root.name (src.extend x) = .ok n) ∧
    f.movedDirectory t src dest = .ok ((t.sheetRoutes f.root dest).filterMap
      (fun x => f.move? t (src.extend x) (dest.extend x)) ++
        (f.known.filter fun n => f.root.Holds src n ∧ n ∉ kept).toList.map .deleted) := by
  have moves : ∀ x ∈ t.sheetRoutes f.root dest, f.movedFile t (src.extend x) (dest.extend x) =
      .ok (f.move? t (src.extend x) (dest.extend x)) := fun x _ => f.movedFile_eq t _ _
  obtain ⟨kept, names, mem⟩ := exists_mapM_eq_ok (f := f.root.name)
    (l := ((t.sheetRoutes f.root dest).map src.extend).filter f.root.isSheet) fun p hp =>
      Root.name_of_isSheet (List.mem_filter.mp hp).2
  have gone : (f.known.filter (f.root.Holds src ·)).diff (.ofList kept) =
      f.known.filter fun n => f.root.Holds src n ∧ n ∉ kept := by
    apply Names.ext
    intro n
    simp [Names.mem_ofList, and_assoc]
  refine ⟨kept, ?_, ?_⟩
  · intro n
    simp only [mem, List.mem_filter, List.mem_map, and_assoc]
    constructor
    · rintro ⟨_, ⟨x, hx, rfl⟩, sheet, named⟩
      exact ⟨x, hx, sheet, named⟩
    · rintro ⟨x, hx, sheet, named⟩
      exact ⟨_, ⟨x, hx, rfl⟩, sheet, named⟩
  · rw [movedDirectory, knownBelow_eq]
    simp only [ok_bind, mapM_eq_ok moves, names, pure_eq_ok, List.filterMap_map, gone]
    rfl

variable {f t}

section
variable {src dest : Path} {r s : Route}

/-- What a file that is a style sheet at its new place is said to be. -/
theorem movedFile_of_leads {c : String} (fromRoute : f.root.Leads r src) (toRoute : f.root.Leads s dest)
    (sheet : s.IsSheet) (read : t.readText dest = .ok c)
    (other : r.IsSheet → r.logicalName ≠ s.logicalName) :
    f.movedFile t src dest = .ok (some (Account.move r s c)) := by
  rw [movedFile, fromRoute.isSheet, toRoute.isSheet, fromRoute.name, toRoute.name, Account.move]
  by_cases hr : r.IsSheet
  · simp only [hr, sheet, decide_true, ok_bind, other hr, if_false, if_true]
    rfl
  · simp only [hr, sheet, decide_true, decide_false, if_false, createdAt, withContent, toRoute.name, read]
    rfl

/-- The messages about a directory that has moved: one for each style sheet in it, and then those about the
names that are not used again. -/
theorem movedDirectory_of_leads (fromRoute : f.root.Leads r src) (toRoute : f.root.Leads s dest) (hr : r ≠ [])
    (plain : r.Plain) (content : Route → String)
    (read : ∀ x ∈ t.sheetRoutes f.root dest, t.readText (dest.extend x) = .ok (content x))
    (other : ∀ x ∈ t.sheetRoutes f.root dest, Route.IsSheet (r ++ x) →
      Route.logicalName (r ++ x) ≠ Route.logicalName (s ++ x)) :
    ∃ gone : List String, f.movedDirectory t src dest = .ok ((t.sheetRoutes f.root dest).map
        (fun x => Account.move (r ++ x) (s ++ x) (content x)) ++ gone.map .deleted) ∧
      ∀ n, n ∈ gone ↔ (n ∈ f.known ∧ r.Holds n) ∧
        ¬ ∃ x ∈ t.sheetRoutes f.root dest, Route.IsSheet (r ++ x) ∧ Route.logicalName (r ++ x) = n := by
  obtain ⟨kept, mem, called⟩ := f.exists_movedDirectory t src dest
  have moves : (t.sheetRoutes f.root dest).filterMap (fun x => f.move? t (src.extend x) (dest.extend x)) =
      (t.sheetRoutes f.root dest).map fun x => Account.move (r ++ x) (s ++ x) (content x) := by
    rw [← List.filterMap_eq_map]
    apply List.filterMap_congr
    intro x hx
    have new := toRoute.extend x
    have sheet := new.isSheet_iff.mp (List.mem_filter.mp hx).2
    rw [move?, movedFile_of_leads (fromRoute.extend x) new sheet (read x hx) (other x hx)]
    rfl
  refine ⟨_, by rw [called, moves], fun n => ?_⟩
  rw [Names.mem_toList, Names.mem_filter_iff, fromRoute.holds_iff plain, or_iff_right hr, mem, and_assoc]
  apply and_congr_right
  intro _
  apply and_congr_right
  intro _
  apply not_congr
  apply exists_congr
  intro x
  rw [(fromRoute.extend x).isSheet_iff, (fromRoute.extend x).name, Except.ok.injEq]

end

end Feed
end StyleFeed
