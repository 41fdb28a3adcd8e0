import StyleFeed.Fallible
import StyleFeed.Feed
import StyleFeed.Proofs.Account
import StyleFeed.Proofs.Edits
import StyleFeed.Proofs.Remembering

/-!
The messages that events call for, on any tree and with any names remembered:

* `Feed.createdBelow_eq`, `Feed.messages_creation`: what is in a place is reported, if it can be read;
* `Feed.messages_rescan`: the same for the whole tree, and then the names of which nothing is left are taken back;
* `Feed.knownBelow_eq`, `Feed.messages_deletion`: what is taken back of a place is its own name and those in it.
-/

namespace StyleFeed

theorem Root.name_of_isSheet {root : Root} {p : Path} (h : root.isSheet p) : ∃ name, root.name p = .ok name := by
  obtain ⟨cs, below, -⟩ := (Option.any_eq_true _ _).mp h
  exact ⟨Component.joined (Component.dropExtension cs), by rw [name, Root.below, below]; rfl⟩

/-- The name of a style sheet; other paths have none of their own. -/
def Root.ownName (root : Root) (p : Path) : List String :=
  if root.isSheet p then (root.name p).toOption.toList else []

@[simp]
theorem Root.mem_ownName {root : Root} {p : Path} {n : String} :
    n ∈ root.ownName p ↔ root.isSheet p ∧ root.name p = .ok n := by
  unfold ownName
  split
  · rename_i sheet
    obtain ⟨name, named⟩ := name_of_isSheet sheet
    simp [sheet, named, Except.toOption, eq_comm]
  · rename_i boring
    simp [boring]

theorem Tree.isSheet_of_mem_sheets {t : Tree} {root : Root} {dir p : Path} (h : p ∈ t.sheets root dir) :
    root.isSheet p := by
  obtain ⟨r, hr, rfl⟩ := List.mem_map.mp h
  exact (List.mem_filter.mp hr).2

/-- What is there and is no directory is a file. -/
theorem Tree.sheetRoutes_of_exists {t : Tree} {root : Root} {p : Path} (there : t.exists p)
    (noDirectory : t.isDirectory p = false) : t.sheetRoutes root p = if root.isSheet p then [[]] else [] := by
  have walk : t.walk p = [[]] := by
    cases found : t.resolve p with
    | error missing => simp [Tree.exists, found, Except.isOk, Except.toBool] at there
    | ok what =>
      obtain ⟨k, e⟩ := what
      cases e with
      | file b => rw [walk, found]
      | directory => simp [isDirectory, found] at noDirectory
      | link target => exact absurd rfl (resolve_notLink found target)
  rw [sheetRoutes, walk, List.filter_singleton, Bool.cond_eq_ite]
  rfl

namespace Feed

variable {f g : Feed} {t : Tree}

/-- The message that reports a style sheet, unless it cannot be read. -/
def report? (f : Feed) (t : Tree) (p : Path) : Option Message :=
  match f.root.name p, t.readText p with
  | .ok name, .ok content => some (.created name content)
  | _, _ => none

theorem report?_eq_some_iff {p : Path} {m : Message} : f.report? t p = some m ↔
    ∃ name content, f.root.name p = .ok name ∧ t.readText p = .ok content ∧ m = .created name content := by
  unfold report?
  split
  · rename_i name content named read
    simp [named, read, eq_comm]
  · rename_i unable
    simp only [reduceCtorEq, false_iff]
    rintro ⟨name, content, named, read, -⟩
    exact unable name content named read

theorem report?_congr (h : g.root = f.root) : g.report? t = f.report? t := by
  funext p
  rw [report?, report?, h]

theorem createdAt_of_isSheet {p : Path} (h : f.root.isSheet p) : f.createdAt t p = .ok (f.report? t p) := by
  obtain ⟨name, named⟩ := Root.name_of_isSheet h
  rw [createdAt, withContent, report?, named]
  cases t.readText p <;> rfl

/-- The reports of the style sheets at and below a path, in the order of the walk. -/
def reports (f : Feed) (t : Tree) (dir : Path) : List Message :=
  (t.sheets f.root dir).filterMap (f.report? t)

theorem createdBelow_eq (f : Feed) (t : Tree) (dir : Path) : f.createdBelow t dir = .ok (f.reports t dir) := by
  have each : ∀ p ∈ t.sheets f.root dir, f.createdAt t p = .ok (f.report? t p) :=
    fun p hp => createdAt_of_isSheet (Tree.isSheet_of_mem_sheets hp)
  rw [createdBelow, mapM_eq_ok each, reports]
  simp [List.filterMap_map]

theorem reports_congr (h : g.root = f.root) (dir : Path) : g.reports t dir = f.reports t dir := by
  rw [reports, reports, report?_congr h, h]

theorem kind_of_mem_reports {dir : Path} {m : Message} (h : m ∈ f.reports t dir) : m.kind = .created := by
  obtain ⟨p, -, found⟩ := List.mem_filterMap.mp h
  obtain ⟨name, content, -, -, rfl⟩ := report?_eq_some_iff.mp found
  rfl

/-- A scan reports the style sheets, and then takes back the names that none of them has. -/
theorem messages_rescan (f : Feed) (t : Tree) :
    ∃ names, (t.sheets f.root f.root.path).mapM f.root.name = .ok names ∧
      f.messages t .rescan = .ok (f.reports t f.root.path ++
        (f.known.toList.filter (· ∉ names)).map .deleted) ∧
      ∀ n, n ∈ names ↔ ∃ p ∈ t.sheets f.root f.root.path, f.root.name p = .ok n := by
  obtain ⟨names, named, mem⟩ := exists_mapM_eq_ok (f := f.root.name) fun p hp =>
    Root.name_of_isSheet (Tree.isSheet_of_mem_sheets hp)
  have stale : (f.known.diff (.ofList names)).toList = f.known.toList.filter (· ∉ names) := by
    refine List.filter_congr fun n _ => ?_
    simp only [Names.mem_ofList]
  refine ⟨names, named, ?_, mem⟩
  simp only [messages, messagesAfterScan, named, createdBelow_eq, ok_bind, pure_eq_ok, stale]

/-- Of a directory everything in it is reported, of anything else the style sheet that it may be. -/
theorem messages_creation (f : Feed) (t : Tree) (p : Path) : f.messages t (.change (.created p)) =
    .ok (if t.isDirectory p then f.reports t p else if f.root.isSheet p then (f.report? t p).toList else []) := by
  rw [messages, messagesAbout]
  split
  · exact f.createdBelow_eq t p
  split
  · rename_i sheet
    rw [createdAt_of_isSheet sheet]
    rfl
  · rfl

/-- Whatever is in a place that came into being is reported. -/
theorem messages_created {p : Path} (there : t.exists p) :
    f.messages t (.change (.created p)) = .ok (f.reports t p) := by
  rw [messages_creation]
  split
  · rfl
  rename_i noDirectory
  rw [reports, Tree.sheets, Tree.sheetRoutes_of_exists there (Bool.eq_false_iff.mpr noDirectory)]
  split
  · rw [List.map_singleton, show p.extend [] = p from rfl]
    cases h : f.report? t p <;> simp [h]
  · rfl

/-- What a directory would hold can always be told, as nothing is looked up outside the root: it is the remembered
names below it. -/
theorem knownBelow_eq (f : Feed) (p : Path) : f.knownBelow p = .ok (f.known.filter (f.root.Holds p ·)) := by
  have found : ∃ names, f.knownBelow p = .ok names ∧ ∀ n, n ∈ names ↔ n ∈ f.known ∧ f.root.Holds p n := by
    rw [knownBelow, Root.relativeName, Root.below]
    simp only [Root.Holds, Root.relativeName, Root.below]
    cases p.below? f.root.path with
    | none => exact ⟨.empty, rfl, by simp⟩
    | some cs =>
      refine ⟨_, rfl, ?_⟩
      intro n
      rw [Names.mem_filter]
      apply and_congr_right
      intro
      simp
  obtain ⟨names, found, mem⟩ := found
  rw [found]
  congr
  apply Names.ext
  intro n
  rw [mem, Names.mem_filter_iff]

/-- A deletion takes back the path's own name and the remembered ones below it. -/
theorem messages_deletion (f : Feed) (t : Tree) (p : Path) : f.messages t (.change (.deleted p)) =
    .ok ((f.root.ownName p ++ (f.known.filter (f.root.Holds p ·)).toList).map .deleted) := by
  rw [messages, messagesAbout, knownBelow_eq, Root.ownName]
  split
  · rename_i sheet
    obtain ⟨name, named⟩ := Root.name_of_isSheet sheet
    rw [named]
    rfl
  · rfl

theorem messages_modified {p : Path} {m : Option Message} (sheet : f.root.isSheet p = true)
    (noDirectory : t.isDirectory p = false) (said : f.withContent t p .modified = .ok m) :
    f.messages t (.change (.modified p)) = .ok m.toList := by
  rw [messages, messagesAbout, sheet, noDirectory, said]
  rfl

/-- A modification of anything but a style sheet says nothing. -/
theorem messages_modified_other {p : Path} (other : ¬ (f.root.isSheet p ∧ t.isDirectory p = false)) :
    f.messages t (.change (.modified p)) = .ok [] := by
  rw [messages, messagesAbout, if_pos]
  simpa [Decidable.imp_iff_not_or] using other

/-- That a directory has moved shows at its new place. -/
theorem messages_moved_directory {src dest : Path} (directory : t.isDirectory dest = true) :
    f.messages t (.change (.moved src dest)) = f.movedDirectory t src dest := by
  rw [messages, messagesAbout, if_pos directory]

theorem messages_moved_file {src dest : Path} {m : Option Message} (noDirectory : t.isDirectory dest = false)
    (said : f.movedFile t src dest = .ok m) : f.messages t (.change (.moved src dest)) = .ok m.toList := by
  rw [messages, messagesAbout, noDirectory, said]
  rfl

section
variable {p : Path} {r : Route}

theorem knownBelow_of_leads (leads : f.root.Leads r p) (hr : r ≠ []) (plain : r.Plain) :
    f.knownBelow p = .ok (f.known.filter (r.Holds ·)) := by
  rw [knownBelow_eq]
  congr
  funext n
  rw [decide_eq_decide, leads.holds_iff plain, or_iff_right hr]

/-- What was in a place that went away is taken back, as far as it is remembered, and its own name if a style
sheet may be there. -/
theorem messages_deleted (leads : f.root.Leads r p) (hr : r ≠ []) (plain : r.Plain) :
    ∃ names : List String, f.messages t (.change (.deleted p)) = .ok (names.map .deleted) ∧
      ∀ n, n ∈ names ↔ (r.IsSheet ∧ r.logicalName = n) ∨ (n ∈ f.known ∧ r.Holds n) := by
  refine ⟨_, f.messages_deletion t p, fun n => ?_⟩
  rw [List.mem_append, Root.mem_ownName, leads.isSheet_iff, leads.name, Except.ok.injEq, Names.mem_toList,
    Names.mem_filter_iff, leads.holds_iff plain, or_iff_right hr]

end

end Feed
end StyleFeed
