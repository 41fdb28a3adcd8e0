import StyleFeed.Proofs.Moves
import StyleFeed.Proofs.Sending

/-!
A rename is handled as one move, or, when its halves come too late for that, as a deletion and then a creation.
The names that are remembered in the end are the same: `Feed.same_names_when_split`.
-/

namespace StyleFeed

open Message (Fits)

namespace Account

variable {r s : Route} {c : String}

@[simp]
theorem name_move : (move r s c).name = s.logicalName := by
  unfold move
  split <;> rfl

@[simp]
theorem oldName?_move : (move r s c).oldName? = if r.IsSheet then some r.logicalName else none := by
  unfold move
  split <;> rfl

@[simp]
theorem kind_move : (move r s c).kind ≠ .deleted := by
  unfold move
  split <;> exact Message.Kind.noConfusion

end Account

/-- A name that the place may have had: as a directory the names in it, as a file its own. -/
def Route.Had (r : Route) (directory : Bool) (n : String) : Prop :=
  if directory then r.Holds n else r.IsSheet ∧ r.logicalName = n

/-- Below a file there is nothing, and a directory is no style sheet itself. -/
theorem Tree.eq_nil_iff_of_mem_sheetRoutes {t : Tree} {root : Root} {p : Path} {x : Route}
    (h : x ∈ t.sheetRoutes root p) : x = [] ↔ t.isDirectory p = false := by
  have walked := (List.mem_filter.mp h).1
  cases found : t.resolve p with
  | error missing => simp [walk, found] at walked
  | ok what =>
    obtain ⟨k, e⟩ := what
    cases e with
    | directory => simp [isDirectory, found, ((mem_walk found).mp walked).1]
    | file b => simpa [isDirectory, walk, found] using walked
    | link target => simp [walk, found] at walked

/-- The text of the style sheet to which the route leads from the path. -/
def Tree.textBelow (t : Tree) (dir : Path) (x : Route) : String :=
  (t.readText (dir.extend x)).toOption.getD ""

namespace Feed

/-- A rename below the root when it is handled: names lead to the old place and to the new one, neither lies in the
other, and what is in the new place can be read. -/
structure Renaming (f : Feed) (t : Tree) (src dest : Path) (r s : Route) : Prop where
  fromRoute : f.root.Leads r src
  toRoute : f.root.Leads s dest
  fromText : r.Plain
  toText : s.Plain
  notInto : ¬ r <+: s
  notOutOf : ¬ s <+: r
  there : t.exists dest
  readable : ∀ p ∈ t.sheets f.root dest, ∃ c, t.readText p = .ok c

/-- What is said of the style sheets that are now in the new place. -/
def moves (f : Feed) (t : Tree) (dest : Path) (r s : Route) : List Message :=
  (t.sheetRoutes f.root dest).map fun x => Account.move (r ++ x) (s ++ x) (t.textBelow dest x)

section
variable {f : Feed} {t : Tree} {src dest : Path} {r s : Route} {n : String}

theorem exists_mem_moves_name : (∃ m ∈ f.moves t dest r s, m.name = n) ↔
    ∃ x ∈ t.sheetRoutes f.root dest, Route.logicalName (s ++ x) = n := by
  simp [moves]

theorem exists_mem_moves_oldName : (∃ m ∈ f.moves t dest r s, m.oldName? = some n) ↔
    ∃ x ∈ t.sheetRoutes f.root dest, Route.IsSheet (r ++ x) ∧ Route.logicalName (r ++ x) = n := by
  simp [moves]

theorem kind_of_mem_moves {m : Message} (hm : m ∈ f.moves t dest r s) : m.kind ≠ .deleted := by
  obtain ⟨x, -, rfl⟩ := List.mem_map.mp hm
  exact Account.kind_move

/-- The messages about a move: those about the style sheets in the new place, and then the deletion of names of
the old one, so that all its names are spoken of. -/
structure Moving (f : Feed) (t : Tree) (src dest : Path) (r s : Route) (gone : List String) : Prop where
  called : f.messages t (.change (.moved src dest)) = .ok (f.moves t dest r s ++ gone.map .deleted)
  onlyHad : ∀ n ∈ gone, r.Had (t.isDirectory dest) n
  allHad : ∀ n ∈ f.known, r.Had (t.isDirectory dest) n →
    n ∈ gone ∨ ∃ m ∈ f.moves t dest r s, m.oldName? = some n

namespace Renaming

variable (moved : f.Renaming t src dest r s)
include moved

theorem from_ne_nil : r ≠ [] := fun nothing => moved.notInto (nothing ▸ List.nil_prefix)

theorem to_ne_nil : s ≠ [] := fun nothing => moved.notOutOf (nothing ▸ List.nil_prefix)

/-- The names of the reports are those of the style sheets in the new place. -/
theorem exists_mem_reports_iff : (∃ m ∈ f.reports t dest, m.name = n) ↔
    ∃ x ∈ t.sheetRoutes f.root dest, Route.logicalName (s ++ x) = n := by
  have name (x : Route) := (moved.toRoute.extend x).name
  constructor
  · rintro ⟨m, hm, rfl⟩
    obtain ⟨p, hp, found⟩ := List.mem_filterMap.mp hm
    obtain ⟨x, hx, rfl⟩ := List.mem_map.mp hp
    obtain ⟨_, content, named, -, rfl⟩ := report?_eq_some_iff.mp found
    rw [name] at named
    exact ⟨x, hx, Except.ok.inj named⟩
  · rintro ⟨x, hx, rfl⟩
    have sheet : dest.extend x ∈ t.sheets f.root dest := List.mem_map_of_mem hx
    obtain ⟨c, read⟩ := moved.readable _ sheet
    refine ⟨.created (Route.logicalName (s ++ x)) c, List.mem_filterMap.mpr ⟨_, sheet, ?_⟩, rfl⟩
    exact report?_eq_some_iff.mpr ⟨_, c, name x, read, rfl⟩

section
variable {x : Route} (hx : x ∈ t.sheetRoutes f.root dest)
include hx

theorem readText : t.readText (dest.extend x) = .ok (t.textBelow dest x) := by
  obtain ⟨c, hc⟩ := moved.readable _ (List.mem_map_of_mem hx)
  simp [Tree.textBelow, hc, Except.toOption]

theorem had_old (sheet : Route.IsSheet (r ++ x)) :
    r.Had (t.isDirectory dest) (Route.logicalName (r ++ x)) := by
  have inside := Tree.eq_nil_iff_of_mem_sheetRoutes hx
  cases directory : t.isDirectory dest with
  | true => exact Route.holds_append moved.from_ne_nil (by simp [inside, directory]) sheet
  | false =>
    rw [inside.mpr directory, List.append_nil] at sheet ⊢
    exact ⟨sheet, rfl⟩

/-- No style sheet has at its new place a name that the old place had. -/
theorem not_had_new : ¬ r.Had (t.isDirectory dest) (Route.logicalName (s ++ x)) := by
  have sheet : Route.IsSheet (s ++ x) :=
    (moved.toRoute.extend x).isSheet_iff.mp (List.mem_filter.mp hx).2
  have inside := Tree.eq_nil_iff_of_mem_sheetRoutes hx
  cases directory : t.isDirectory dest with
  | true =>
    intro had
    have below : x ≠ [] := by simp [inside, directory]
    have held : s.Holds (Route.logicalName (s ++ x)) := Route.holds_append moved.to_ne_nil below sheet
    rcases Route.prefix_or_prefix_of_holds moved.from_ne_nil moved.to_ne_nil moved.fromText moved.toText
      had held with into | outOf
    · exact moved.notInto into
    · exact moved.notOutOf outOf
  | false =>
    rw [inside.mpr directory, List.append_nil] at sheet ⊢
    rintro ⟨sheet', same⟩
    have same := Route.logicalName_injective sheet' sheet moved.fromText moved.toText same
    exact moved.notInto (same ▸ List.prefix_rfl)

theorem renamed (sheet : Route.IsSheet (r ++ x)) :
    Route.logicalName (r ++ x) ≠ Route.logicalName (s ++ x) := fun same =>
  moved.not_had_new hx (same ▸ moved.had_old hx sheet)

end

theorem moving_directory (directory : t.isDirectory dest = true) : ∃ gone, f.Moving t src dest r s gone := by
  obtain ⟨gone, called, mem⟩ := movedDirectory_of_leads moved.fromRoute moved.toRoute moved.from_ne_nil
    moved.fromText (t.textBelow dest) (fun _ => moved.readText) fun _ => moved.renamed
  refine ⟨gone, ?_, fun n hn => ?_, fun n known had => ?_⟩
  · rw [messages_moved_directory directory]
    exact called
  · rw [directory]
    exact ((mem n).mp hn).1.2
  · rw [directory] at had
    rw [exists_mem_moves_oldName, mem]
    exact or_iff_not_imp_right.mpr fun unused => ⟨⟨known, had⟩, unused⟩

theorem moving_file (noDirectory : t.isDirectory dest = false) : ∃ gone, f.Moving t src dest r s gone := by
  have routes : t.sheetRoutes f.root dest = _ := Tree.sheetRoutes_of_exists moved.there noDirectory
  by_cases sheet : s.IsSheet
  · rw [if_pos (moved.toRoute.isSheet_iff.mpr sheet)] at routes
    have only : [] ∈ t.sheetRoutes f.root dest := by simp [routes]
    have renamed := moved.renamed only
    rw [List.append_nil, List.append_nil] at renamed
    refine ⟨[], ?_, List.forall_mem_nil _, fun n _ had => .inr ?_⟩
    · rw [messages_moved_file noDirectory
        (movedFile_of_leads moved.fromRoute moved.toRoute sheet (moved.readText only) renamed), moves, routes]
      simp
    · rw [noDirectory] at had
      exact exists_mem_moves_oldName.mpr ⟨[], only, by rwa [List.append_nil]⟩
  -- what is no style sheet any more is gone, if it was one
  · rw [if_neg fun h => sheet (moved.toRoute.isSheet_iff.mp h)] at routes
    refine ⟨if r.IsSheet then [r.logicalName] else [], ?_, fun n hn => ?_, fun n _ had => .inl ?_⟩
    · rw [messages, messagesAbout, noDirectory, moves, routes, movedFile, moved.fromRoute.isSheet,
        moved.toRoute.isSheet, moved.fromRoute.name]
      by_cases sheet' : r.IsSheet <;> simp [sheet, sheet']
    · rw [noDirectory]
      by_cases sheet' : r.IsSheet <;> simp [sheet'] at hn
      exact ⟨sheet', hn.symm⟩
    · rw [noDirectory] at had
      simp [had.1, had.2]

theorem exists_moving : ∃ gone, f.Moving t src dest r s gone := by
  cases directory : t.isDirectory dest with
  | true => exact moved.moving_directory directory
  | false => exact moved.moving_file directory

/-- After a move none of the names is left that the old place had, and those in the new place are known. -/
theorem mem_known {gone : List String} (moving : f.Moving t src dest r s gone) {g : Feed}
    (sent : f.Sent (f.moves t dest r s ++ gone.map .deleted) g) : n ∈ g.known ↔
      (n ∈ f.known ∧ ¬ r.Had (t.isDirectory dest) n) ∨
        ∃ x ∈ t.sheetRoutes f.root dest, Route.logicalName (s ++ x) = n := by
  have old {n : String} (said : ∃ m ∈ f.moves t dest r s, m.oldName? = some n) :
      r.Had (t.isDirectory dest) n := by
    obtain ⟨x, hx, sheet, rfl⟩ := exists_mem_moves_oldName.mp said
    exact moved.had_old hx sheet
  have new {n : String} (said : ∃ m ∈ f.moves t dest r s, m.name = n) :
      ¬ r.Had (t.isDirectory dest) n := by
    obtain ⟨x, hx, rfl⟩ := exists_mem_moves_name.mp said
    exact moved.not_had_new hx
  have apart : ∀ m ∈ f.moves t dest r s, ∀ m' ∈ f.moves t dest r s, m.oldName? ≠ some m'.name :=
    fun m hm m' hm' same => new ⟨m', hm', rfl⟩ (old ⟨m, hm, same⟩)
  rw [sent.known, List.foldl_append, Names.mem_foldl_deleted,
    Names.mem_foldl_arrivals (fun m => kind_of_mem_moves) apart, ← exists_mem_moves_name]
  constructor
  · rintro ⟨⟨known, unused⟩ | said, kept⟩
    · refine .inl ⟨known, fun had => ?_⟩
      rcases moving.allHad n known had with taken | ⟨m, hm, same⟩
      · exact kept taken
      · exact unused m hm same
    · exact .inr said
  · rintro (⟨known, notHad⟩ | said)
    · exact ⟨.inl ⟨known, fun m hm same => notHad (old ⟨m, hm, same⟩)⟩,
        fun taken => notHad (moving.onlyHad n taken)⟩
    · exact ⟨.inr said, fun taken => new said (moving.onlyHad n taken)⟩

/-- Of a place of the same kind as the new one, the names that it had are those that a deletion takes back. -/
theorem had_iff (sameKind : if t.isDirectory dest then ∀ n, f.root.name src = .ok n → n ∉ f.known
      else f.knownBelow src = .ok .empty) (known : n ∈ f.known) :
    r.Had (t.isDirectory dest) n ↔ (r.IsSheet ∧ r.logicalName = n) ∨ (n ∈ f.known ∧ r.Holds n) := by
  rw [Route.Had]
  split at sameKind
  · rename_i directory
    have other : r.logicalName ≠ n := by
      rintro rfl
      exact sameKind _ moved.fromRoute.name known
    simp [directory, other, known]
  · rename_i noDirectory
    have outside : ¬ r.Holds n := by
      rw [knownBelow_of_leads moved.fromRoute moved.from_ne_nil moved.fromText] at sameKind
      intro holds
      have held : n ∈ f.known.filter (r.Holds ·) := Names.mem_filter_iff.mpr ⟨known, holds⟩
      rw [Except.ok.inj sameKind] at held
      exact Names.not_mem_empty held
    simp [noDirectory, outside]

end Renaming

end

/-- However a rename is reported, the same names are known after it: whether as one move, or as the deletion of
what was at the old place and the creation of what is at the new one. The old place had what the new one has: a
directory with no style sheet of its own name, or a file with no names below it. -/
theorem same_names_when_split {f : Feed} {t : Tree} {src dest : Path} {r s : Route}
    (faultless : f.outlet.Faultless) (moved : f.Renaming t src dest r s)
    (sameKind : if t.isDirectory dest then ∀ n, f.root.name src = .ok n → n ∉ f.known
      else f.knownBelow src = .ok .empty)
    (whole : ∀ m ∈ f.calledFor [(t, .change (.moved src dest))], Fits f.limit m)
    (halves : ∀ m ∈ f.calledFor [(t, .change (.deleted src)), (t, .change (.created dest))], Fits f.limit m) :
    ∃ g k, f.run [(t, .change (.moved src dest))] = (.ok (), g) ∧
      f.run [(t, .change (.deleted src)), (t, .change (.created dest))] = (.ok (), k) ∧ g.known = k.known := by
  obtain ⟨gone, moving⟩ := moved.exists_moving
  obtain ⟨g, ranWhole, sent, -, -⟩ := run_cons_of_fitting faultless moving.called whole
  obtain ⟨names, deleted, mem⟩ := f.messages_deleted (t := t) moved.fromRoute moved.from_ne_nil moved.fromText
  obtain ⟨h, ranFirst, sentFirst, faultless', second⟩ := run_cons_of_fitting faultless deleted halves
  obtain ⟨k, ranSecond, sentSecond, -, -⟩ :=
    run_cons_of_fitting faultless' (messages_created moved.there) second
  refine ⟨g, k, ranWhole, ranFirst.trans ranSecond, Names.ext fun n => ?_⟩
  have afterMove := moved.mem_known (n := n) moving sent
  have afterHalves : n ∈ k.known ↔ (n ∈ f.known ∧ n ∉ names) ∨
      ∃ x ∈ t.sheetRoutes f.root dest, Route.logicalName (s ++ x) = n := by
    rw [sentSecond.known, Names.mem_foldl_created fun m => kind_of_mem_reports, sentFirst.known,
      Names.mem_foldl_deleted, reports_congr sentFirst.root, moved.exists_mem_reports_iff]
  rw [afterMove, afterHalves]
  refine or_congr_left (and_congr_right fun known => not_congr ?_)
  rw [mem, moved.had_iff sameKind known]

/-! A directory has come from `d` to `e` with the style sheet `c.css` in it; two names of its old place are known. -/
namespace DirectoryMove

def name (b : UInt8) (proper : FileName.IsProper [b]) : FileName := ⟨[b], proper⟩

def top : FileName := name 0x74 (by decide)
def d : FileName := name 0x64 (by decide)
def e : FileName := name 0x65 (by decide)

/-- `c.css` -/
def c : FileName := ⟨[0x63, 0x2e, 0x63, 0x73, 0x73], by decide⟩

def tree : Tree where
  entries := [([top], .directory), ([top, e], .directory), ([top, e, c], .file [0x78])]
  workplace := []
  distinct := by decide
  rooted := by decide

def feed : Feed where
  root := ⟨.ofString "/t"⟩
  limit := 1024
  known := .ofList ["d/c", "d/old", "f"]
  outlet := .willing

def src : Path := .ofString "/t/d"
def dest : Path := .ofString "/t/e"

theorem same_names : ∃ g k, feed.run [(tree, .change (.moved src dest))] = (.ok (), g) ∧
    feed.run [(tree, .change (.deleted src)), (tree, .change (.created dest))] = (.ok (), k) ∧
    g.known = k.known ∧ g.known.toList = ["e/c", "f"] := by
  have readable : ∀ p ∈ tree.sheets feed.root dest, ∃ c, tree.readText p = .ok c := by
    have only : tree.sheets feed.root dest = [dest.extend [c]] := by decide +kernel
    rw [only]
    exact List.forall_mem_singleton.mpr ⟨"x", by decide +kernel⟩
  have sameKind : if tree.isDirectory dest then ∀ n, feed.root.name src = .ok n → n ∉ feed.known
      else feed.knownBelow src = .ok .empty := by
    have directory : tree.isDirectory dest = true := by decide +kernel
    have named : feed.root.name src = .ok "d" := by decide +kernel
    rw [if_pos directory, named]
    rintro n ⟨⟩
    decide +kernel
  have moved : feed.Renaming tree src dest [d] [e] :=
    ⟨by decide +kernel, by decide +kernel, by decide, by decide, by decide, by decide, by decide +kernel, readable⟩
  obtain ⟨g, k, whole, halves, same⟩ := same_names_when_split (Outlet.Willing.faultless ⟨rfl, rfl⟩) moved
    sameKind (by decide +kernel) (by decide +kernel)
  have left : (feed.run [(tree, .change (.moved src dest))]).2.known.toList = ["e/c", "f"] := by
    decide +kernel
  rw [whole] at left
  exact ⟨g, k, whole, halves, same, left⟩

end DirectoryMove

end Feed
end StyleFeed
