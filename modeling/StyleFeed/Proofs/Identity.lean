import StyleFeed.Proofs.Called

/-!
What the style sheets that a scan finds are called: `Feed.names_apart_iff_shown_apart`. Two of them have one name
just if the names on their ways are shown alike, as those of two directories can be if they are no text.
-/

namespace StyleFeed

namespace Tree

variable {t : Tree} {root : Root} {r : Route}

theorem isSheet_of_mem_sheetRoutes (h : r ∈ t.sheetRoutes root root.path) : r.IsSheet :=
  (Root.leads_extend root r).isSheet_iff.mp (List.mem_filter.mp h).2

/-- A scan finds the style sheets that are files on ways through directories only. -/
theorem mem_sheetRoutes_iff {top : Route} (directory : t.resolve root.path = .ok (top, .directory)) :
    r ∈ t.sheetRoutes root root.path ↔ r.IsSheet ∧ ∃ b, t.lookup? (top ++ r) = some (.file b) := by
  rw [sheetRoutes, List.mem_filter, mem_walk directory, (Root.leads_extend root r).isSheet_iff]
  constructor
  · rintro ⟨⟨-, -, file⟩, sheet⟩
    exact ⟨sheet, file⟩
  · rintro ⟨sheet, file⟩
    have nonempty : r ≠ [] := by
      rintro rfl
      cases sheet
    exact ⟨⟨nonempty, sheet.git_notMem, file⟩, sheet⟩

theorem nodup_sheetRoutes (t : Tree) (root : Root) (dir : Path) : (t.sheetRoutes root dir).Nodup :=
  (t.nodup_walk dir).filter _

theorem mapM_name_sheets (t : Tree) (root : Root) :
    (t.sheets root root.path).mapM root.name = .ok ((t.sheetRoutes root root.path).map Route.logicalName) := by
  rw [sheets, List.mapM_map]
  apply mapM_eq_ok
  intro r _
  exact (Root.leads_extend root r).name

end Tree

namespace Feed

variable {f : Feed} {t : Tree}

/-- The style sheets that a scan finds and can read. -/
def readable (f : Feed) (t : Tree) : List Route :=
  (t.sheetRoutes f.root f.root.path).filter fun r => (f.report? t (f.root.path.extend r)).isSome

theorem map_name_reports (f : Feed) (t : Tree) :
    (f.reports t f.root.path).map (·.name) = (f.readable t).map Route.logicalName := by
  rw [reports, Tree.sheets, List.filterMap_map, List.map_filterMap, readable, ← List.filterMap_eq_map,
    List.filterMap_filter]
  apply List.filterMap_congr
  intro r found
  rw [Function.comp_apply]
  cases report : f.report? t (f.root.path.extend r) with
  | none => rfl
  | some m =>
    obtain ⟨name, content, named, -, rfl⟩ := report?_eq_some_iff.mp report
    rw [(Root.leads_extend f.root r).name] at named
    cases named
    rfl

/-- The names are apart as far as the ways to the style sheets are shown apart. -/
theorem nodup_names_iff {found : List Route} (sub : found.Sublist (t.sheetRoutes f.root f.root.path)) :
    (found.map Route.logicalName).Nodup ↔ found.Pairwise (·.texts ≠ ·.texts) := by
  rw [List.nodup_iff_pairwise_ne, List.pairwise_map]
  apply List.Pairwise.iff_of_mem
  intro r s hr hs
  have sheet := Tree.isSheet_of_mem_sheetRoutes (sub.mem hr)
  have sheet' := Tree.isSheet_of_mem_sheetRoutes (sub.mem hs)
  exact not_congr (Route.logicalName_eq_iff sheet sheet')

theorem created_of_rescan (f : Feed) (t : Tree) :
    ∃ ms, f.messages t .rescan = .ok ms ∧ ms.filter (·.kind = .created) = f.reports t f.root.path := by
  obtain ⟨names, -, called, -⟩ := f.messages_rescan t
  refine ⟨_, called, ?_⟩
  have reports : ∀ m ∈ f.reports t f.root.path, decide (m.kind = .created) := by
    intro m mem
    exact decide_eq_true (kind_of_mem_reports mem)
  rw [List.filter_append, List.filter_eq_self.mpr reports, List.filter_map]
  simp [Function.comp_def, Message.kind]

/-- Two style sheets that a scan finds have one name just if all names on their ways are shown alike. So the names
of a scan and those of its reports are apart just if no two ways are shown alike, as is so if all directories are
called something that is text; and to take back the name of one style sheet is to take back that of another one just
if their ways are. -/
theorem names_apart_iff_shown_apart (f : Feed) (t : Tree) :
    let found := t.sheetRoutes f.root f.root.path
    found.Nodup ∧ (t.sheets f.root f.root.path).mapM f.root.name = .ok (found.map Route.logicalName) ∧
    (∀ r ∈ found, ∀ s ∈ found, r.logicalName = s.logicalName ↔ r.texts = s.texts) ∧
    ((found.map Route.logicalName).Nodup ↔ found.Pairwise (·.texts ≠ ·.texts)) ∧
    ((∀ r ∈ found, Route.Plain r.dropLast) → (found.map Route.logicalName).Nodup) ∧
    (∃ ms, f.messages t .rescan = .ok ms ∧
      (((ms.filter (·.kind = .created)).map (·.name)).Nodup ↔ (f.readable t).Pairwise (·.texts ≠ ·.texts))) ∧
    (∀ r ∈ found, ∀ s ∈ found, ∀ known : Names, s.logicalName ∈ known →
      (s.logicalName ∈ known.record (.deleted r.logicalName) ↔ r.texts ≠ s.texts)) := by
  intro found
  have sheet {r : Route} (mem : r ∈ found) : r.IsSheet := Tree.isSheet_of_mem_sheetRoutes mem
  have alike {r s : Route} (hr : r ∈ found) (hs : s ∈ found) : r.logicalName = s.logicalName ↔ r.texts = s.texts :=
    Route.logicalName_eq_iff (sheet hr) (sheet hs)
  refine ⟨t.nodup_sheetRoutes _ _, t.mapM_name_sheets f.root, fun r hr s hs => alike hr hs,
    nodup_names_iff (List.Sublist.refl _), ?_, ?_, ?_⟩
  · intro text
    apply (t.nodup_sheetRoutes _ _).map_on
    intro r hr s hs same
    exact Route.logicalName_injective (sheet hr) (sheet hs) ((sheet hr).plain (text r hr))
      ((sheet hs).plain (text s hs)) same
  · obtain ⟨ms, called, created⟩ := f.created_of_rescan t
    refine ⟨ms, called, ?_⟩
    rw [created, map_name_reports]
    exact nodup_names_iff List.filter_sublist
  · intro r hr s hs known mem
    have apart : s.logicalName ≠ r.logicalName ↔ r.texts ≠ s.texts := ne_comm.trans (not_congr (alike hr hs))
    rw [Names.record, Names.mem_erase, apart]
    exact and_iff_right mem

/-! Two directories that are called by one byte each, which is no text. -/
namespace TwoDirectories

def top : Route := [⟨[0x73], by decide⟩]

def sheet : FileName := ⟨0x61 :: dot :: FileName.sheetExtension, by decide⟩

def first : Route := [⟨[0xff], by decide⟩]

def second : Route := [⟨[0xfe], by decide⟩]

def tree : Tree where
  entries := [(top, .directory), (top ++ first, .directory), (top ++ first ++ [sheet], .file [0x78]),
    (top ++ second, .directory), (top ++ second ++ [sheet], .file [0x79])]
  workplace := []
  distinct := by decide
  rooted := by decide

/-- The first style sheet has gone. -/
def rest : Tree where
  entries := [(top, .directory), (top ++ first, .directory), (top ++ second, .directory),
    (top ++ second ++ [sheet], .file [0x79])]
  workplace := []
  distinct := by decide
  rooted := by decide

def feed : Feed := .start ⟨.ofString "/s"⟩ browserLimit .willing

theorem one_name_for_both :
    let r := first ++ [sheet]
    let s := second ++ [sheet]
    r ∈ tree.sheetRoutes feed.root feed.root.path ∧ s ∈ tree.sheetRoutes feed.root feed.root.path ∧ r ≠ s ∧
      feed.root.name (feed.root.path.extend r) = .ok "\uFFFD/a" ∧
      feed.root.name (feed.root.path.extend s) = .ok "\uFFFD/a" ∧
      feed.messages tree .rescan = .ok [.created "\uFFFD/a" "x", .created "\uFFFD/a" "y"] ∧
      s ∈ rest.sheetRoutes feed.root feed.root.path ∧
      feed.messages rest (.change (.deleted (feed.root.path.extend r))) = .ok [.deleted "\uFFFD/a"] := by
  decide +kernel

end TwoDirectories

end Feed
end StyleFeed
