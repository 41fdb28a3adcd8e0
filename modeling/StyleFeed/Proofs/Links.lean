import StyleFeed.Proofs.Identity
import StyleFeed.Proofs.Sending
import StyleFeed.Proofs.Ways

/-!
A scan finds what lies in directories, not what links lead to, while a report of a path alone follows them. So a
scan can take back the name of a style sheet that can be read: `Feed.retracts_readable_iff` says exactly when.
-/

namespace StyleFeed

/-- The path goes down from the root by names, and through no link. -/
def Root.Straight (root : Root) (t : Tree) (p : Path) : Prop :=
  ∃ r top, root.Leads r p ∧ t.resolve root.path = .ok (top, .directory) ∧ t.Clear top r

/-- A scan finds a style sheet that a straight way leads to, and calls it by the same name. -/
theorem Root.Straight.exists_sheet {root : Root} {t : Tree} {p : Path} {content : String}
    (straight : root.Straight t p) (sheet : root.isSheet p) (readable : t.readText p = .ok content) :
    ∃ q ∈ t.sheets root root.path, root.name q = root.name p := by
  obtain ⟨r, top, leads, directory, clear⟩ := straight
  obtain ⟨x, b, there, -⟩ := Tree.readText_eq_ok_iff.mp readable
  obtain rfl := leads.eq_append directory clear there
  have file := (Tree.resolve_eq_ok_iff.mp there).2
  have found := (Tree.mem_sheetRoutes_iff directory).mpr ⟨leads.isSheet_iff.mp sheet, b, file⟩
  refine ⟨root.path.extend r, List.mem_map_of_mem found, ?_⟩
  exact (Root.leads_extend root r).name.trans leads.name.symm

namespace Feed

/-- Of the names of style sheets that can be read a scan takes back those that it knew and that no style sheet has
which it finds; those are names of paths that go up again, or through a link. -/
theorem retracts_readable_iff (f : Feed) (t : Tree) :
    ∃ ms, f.messages t .rescan = .ok ms ∧ f.resync t = f.send ms ∧
      ∀ p n content, f.root.isSheet p → f.root.name p = .ok n → t.readText p = .ok content →
        (.deleted n ∈ ms ↔ n ∈ f.known ∧ ¬ f.root.Straight t p ∧
          ∀ q ∈ t.sheets f.root f.root.path, f.root.name q ≠ .ok n) := by
  obtain ⟨names, -, called, found⟩ := f.messages_rescan t
  refine ⟨_, called, by rw [resync, handle, called], ?_⟩
  intro p n content sheet named readable
  have report : Message.deleted n ∉ f.reports t f.root.path := by
    intro mem
    cases kind_of_mem_reports mem
  have stale : n ∉ names ↔ ∀ q ∈ t.sheets f.root f.root.path, f.root.name q ≠ .ok n := by
    rw [found]
    simp
  have astray (gone : ∀ q ∈ t.sheets f.root f.root.path, f.root.name q ≠ .ok n) : ¬ f.root.Straight t p := by
    intro straight
    obtain ⟨q, mem, same⟩ := straight.exists_sheet sheet readable
    exact gone q mem (same.trans named)
  simp only [List.mem_append, report, false_or, List.mem_map, Message.deleted.injEq, exists_eq_right,
    List.mem_filter, decide_eq_true_eq, stale, Names.mem_toList]
  constructor
  · rintro ⟨known, gone⟩
    exact ⟨known, astray gone, gone⟩
  · rintro ⟨known, -, gone⟩
    exact ⟨known, gone⟩

/-! A link below the root to a style sheet outside. -/
namespace LinkedSheet

open TwoDirectories (top sheet)

def target : FileName := ⟨[0x78], by decide⟩

def tree : Tree where
  entries := [(top, .directory), (top ++ [sheet], .link (.ofString "/x")), ([target], .file [0x79])]
  workplace := []
  distinct := by decide
  rooted := by decide

def path : Path := .ofString "/s/a.css"

def feed : Feed := .start ⟨.ofString "/s"⟩ browserLimit .willing

theorem reported_then_retracted :
    feed.root.isSheet path ∧ feed.root.name path = .ok "a" ∧ tree.readText path = .ok "y" ∧
      (feed.run [(tree, .change (.created path)), (tree, .rescan)]).1 = .ok () ∧
      (feed.run [(tree, .change (.created path)), (tree, .rescan)]).2.outlet.accepted =
        [Message.created "a" "y", .deleted "a"].flatMap Message.frame := by
  decide +kernel

end LinkedSheet

end Feed
end StyleFeed
