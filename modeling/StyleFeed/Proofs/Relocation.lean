import StyleFeed.Proofs.Places
import StyleFeed.Proofs.Splitting

/-!
A directory that was moved, whatever is in it by then and whatever was remembered of its old place. What is said of it
is `Feed.followed` and then the deletions of the names that nothing in it has had. After that nothing is remembered
below the old place, and what was found at the new one is (`Feed.relocation_exact`).
-/

namespace StyleFeed

open Message (Fits)

/-- Where the last name is a style sheet's, a name as style sheets have them is that of a style sheet. -/
theorem Route.isSheet_of_isLogical {d : Route} {n : FileName} (sheet : n.isSheet)
    (logical : IsLogical (logicalName (d ++ [n]))) : IsSheet (d ++ [n]) := by
  refine isSheet_concat.mpr ⟨sheet, fun git => ?_⟩
  obtain ⟨m, -, parts⟩ := exists_splitOn_logicalName (d := d) sheet
  rcases List.mem_append.mp git with git | last
  · have part : FileName.git.text.toList ∈ (logicalName (d ++ [n])).toList.splitOn '/' := by
      rw [parts]
      exact List.mem_map_of_mem (List.mem_append_left _ git)
    exact (logical.part _ part).2 (by decide +kernel)
  · obtain rfl := List.mem_singleton.mp last
    cases sheet

namespace Feed

/-- What is said of a style sheet in a directory that was moved: that it has a new name if it was one before, and else
that it is there, if it can be read. -/
def follow? (f : Feed) (t : Tree) (src dest : Path) : Option Message :=
  match f.root.isSheet src, f.root.name src, f.root.name dest with
  | true, .ok oldName, .ok newName => some (.renamed oldName newName)
  | _, _, _ => f.report? t dest

/-- What is said of the style sheets in a directory that was moved, in the order of the walk. -/
def followed (f : Feed) (t : Tree) (src dest : Path) : List Message :=
  (t.sheetRoutes f.root dest).filterMap fun x => f.follow? t (src.extend x) (dest.extend x)

section
variable {f g : Feed} {t : Tree} {src dest : Path} {x : Route} {n : String} {m : Message}

theorem follow?_eq_some_iff (sheet : f.root.isSheet dest) : f.follow? t src dest = some m ↔
    (∃ oldName newName, f.root.isSheet src ∧ f.root.name src = .ok oldName ∧ f.root.name dest = .ok newName ∧
      m = .renamed oldName newName) ∨
    (f.root.isSheet src = false ∧ f.report? t dest = some m) := by
  obtain ⟨newName, named'⟩ := Root.name_of_isSheet sheet
  rw [follow?, named']
  cases old : f.root.isSheet src with
  | false => simp
  | true =>
    obtain ⟨oldName, named⟩ := Root.name_of_isSheet old
    simp [named, eq_comm]

theorem kind_of_mem_followed (hm : m ∈ f.followed t src dest) : m.kind ≠ .deleted := by
  obtain ⟨x, hx, said⟩ := List.mem_filterMap.mp hm
  rcases (follow?_eq_some_iff (List.mem_filter.mp hx).2).mp said with ⟨_, _, -, -, -, rfl⟩ | ⟨-, said⟩
  · nofun
  · obtain ⟨name, content, -, -, rfl⟩ := report?_eq_some_iff.mp said
    nofun

/-- What had a name before was a style sheet at the old place. -/
theorem exists_mem_followed_oldName : (∃ m ∈ f.followed t src dest, m.oldName? = some n) ↔
    ∃ x ∈ t.sheetRoutes f.root dest, f.root.isSheet (src.extend x) ∧ f.root.name (src.extend x) = .ok n := by
  constructor
  · rintro ⟨m, hm, old⟩
    obtain ⟨x, hx, said⟩ := List.mem_filterMap.mp hm
    rcases (follow?_eq_some_iff (List.mem_filter.mp hx).2).mp said with
      ⟨oldName, newName, sheet, named, -, rfl⟩ | ⟨-, said⟩
    · obtain rfl : oldName = n := Option.some.inj old
      exact ⟨x, hx, sheet, named⟩
    · obtain ⟨name, content, -, -, rfl⟩ := report?_eq_some_iff.mp said
      cases old
  · rintro ⟨x, hx, sheet, named⟩
    have sheet' := (List.mem_filter.mp hx).2
    obtain ⟨newName, named'⟩ := Root.name_of_isSheet sheet'
    refine ⟨.renamed n newName, List.mem_filterMap.mpr ⟨x, hx, ?_⟩, rfl⟩
    exact (follow?_eq_some_iff sheet').mpr (.inl ⟨n, newName, sheet, named, named', rfl⟩)

/-- What has a name now was a style sheet at the old place, or can be read at the new one. -/
theorem exists_mem_followed_name : (∃ m ∈ f.followed t src dest, m.name = n) ↔
    ∃ x ∈ t.sheetRoutes f.root dest, f.root.name (dest.extend x) = .ok n ∧
      (f.root.isSheet (src.extend x) ∨ ∃ content, t.readText (dest.extend x) = .ok content) := by
  constructor
  · rintro ⟨m, hm, rfl⟩
    obtain ⟨x, hx, said⟩ := List.mem_filterMap.mp hm
    rcases (follow?_eq_some_iff (List.mem_filter.mp hx).2).mp said with
      ⟨oldName, newName, sheet, -, named', rfl⟩ | ⟨-, said⟩
    · exact ⟨x, hx, named', .inl sheet⟩
    · obtain ⟨name, content, named', read, rfl⟩ := report?_eq_some_iff.mp said
      exact ⟨x, hx, named', .inr ⟨content, read⟩⟩
  · rintro ⟨x, hx, named', found⟩
    have sheet' := (List.mem_filter.mp hx).2
    cases old : f.root.isSheet (src.extend x) with
    | true =>
      obtain ⟨oldName, named⟩ := Root.name_of_isSheet old
      refine ⟨.renamed oldName n, List.mem_filterMap.mpr ⟨x, hx, ?_⟩, rfl⟩
      exact (follow?_eq_some_iff sheet').mpr (.inl ⟨oldName, n, old, named, named', rfl⟩)
    | false =>
      obtain ⟨content, read⟩ := found.resolve_left (Bool.eq_false_iff.mp old)
      refine ⟨.created n content, List.mem_filterMap.mpr ⟨x, hx, ?_⟩, rfl⟩
      exact (follow?_eq_some_iff sheet').mpr (.inr ⟨old, report?_eq_some_iff.mpr ⟨n, content, named', read, rfl⟩⟩)

/-- A directory is at the new place by now, and neither of the two places lies in the other. -/
structure Relocation (f : Feed) (t : Tree) (src dest : Path) : Prop where
  covers : f.root.Covers src
  covers' : f.root.Covers dest
  apart : src.Apart dest
  directory : t.isDirectory dest

namespace Relocation

variable (moved : f.Relocation t src dest)
include moved

section
variable (hx : x ∈ t.sheetRoutes f.root dest)
include hx

theorem ne_nil : x ≠ [] := by
  rw [Ne, Tree.eq_nil_iff_of_mem_sheetRoutes hx, moved.directory]
  nofun

theorem holds_new (named : f.root.name (dest.extend x) = .ok n) : f.root.Holds dest n :=
  moved.covers'.holds_name (moved.ne_nil hx) (List.mem_filter.mp hx).2 named

theorem holds_old (sheet : f.root.isSheet (src.extend x)) (named : f.root.name (src.extend x) = .ok n) :
    f.root.Holds src n := moved.covers.holds_name (moved.ne_nil hx) sheet named

/-- A name that style sheets may have is at the old place that of a style sheet. -/
theorem isSheet_of_isName (isName : f.root.IsName n) (named : f.root.name (src.extend x) = .ok n) :
    f.root.isSheet (src.extend x) := by
  have sheet := (List.mem_filter.mp hx).2
  have nonempty := moved.ne_nil hx
  obtain ⟨r, leads, -⟩ := moved.covers
  obtain ⟨s, leads', -⟩ := moved.covers'
  obtain rfl := Except.ok.inj ((leads.extend x).name.symm.trans named)
  rw [(leads.extend x).isSheet_iff]
  rw [(leads'.extend x).isSheet_iff] at sheet
  have logical := isName.isLogical
  cases x using List.reverseRec with
  | nil => exact absurd rfl nonempty
  | append_singleton d n =>
    rw [← List.append_assoc] at sheet logical ⊢
    exact Route.isSheet_of_isLogical (Route.isSheet_concat.mp sheet).1 logical

/-- No name is had at both places, so that what is said of a file that was moved is said. -/
theorem move?_eq : f.move? t (src.extend x) (dest.extend x) = f.follow? t (src.extend x) (dest.extend x) := by
  have sheet' := (List.mem_filter.mp hx).2
  obtain ⟨newName, named'⟩ := Root.name_of_isSheet sheet'
  rw [move?, movedFile, follow?, sheet', named']
  cases sheet : f.root.isSheet (src.extend x) with
  | false =>
    rw [createdAt_of_isSheet sheet']
    rfl
  | true =>
    obtain ⟨oldName, named⟩ := Root.name_of_isSheet sheet
    have other : oldName ≠ newName := by
      rintro rfl
      exact moved.covers.not_holds_of_apart moved.covers' moved.apart (moved.holds_old hx sheet named)
        (moved.holds_new hx named')
    simp only [named, ok_bind, other, if_false]
    rfl

end

/-- What is taken back is what is remembered below the old place and has not moved. -/
theorem exists_gone (decent : f.Decent) : ∃ gone : List String,
    f.messages t (.change (.moved src dest)) = .ok (f.followed t src dest ++ gone.map .deleted) ∧
    gone.Pairwise (fun m n => Utf8.encode m < Utf8.encode n) ∧
    ∀ n, n ∈ gone ↔ n ∈ f.known ∧ (f.root.home n).Inside src ∧
      ∀ x ∈ t.sheetRoutes f.root dest, f.root.name (src.extend x) ≠ .ok n := by
  obtain ⟨kept, mem, called⟩ := f.exists_movedDirectory t src dest
  have moves : (t.sheetRoutes f.root dest).filterMap (fun x => f.move? t (src.extend x) (dest.extend x)) =
      f.followed t src dest := List.filterMap_congr fun x hx => moved.move?_eq hx
  refine ⟨(f.known.filter fun n => f.root.Holds src n ∧ n ∉ kept).toList, ?_, ?_, fun n => ?_⟩
  · rw [messages_moved_directory moved.directory, called, moves]
  · exact (Names.ascending _).imp Utf8.encode_lt
  · rw [Names.mem_toList, Names.mem_filter_iff]
    apply and_congr_right
    intro known
    have isName := decent n known
    rw [moved.covers.inside_home_iff isName, mem]
    apply and_congr_right
    intro _
    constructor
    · intro unused x hx named
      exact unused ⟨x, hx, moved.isSheet_of_isName hx isName named, named⟩
    · rintro unused ⟨x, hx, -, named⟩
      exact unused x hx named

/-- The renames go one after the other, but none gives a name that another takes away. -/
theorem mem_known (decent : f.Decent) {gone : List String}
    (mem : ∀ n, n ∈ gone ↔ n ∈ f.known ∧ (f.root.home n).Inside src ∧
      ∀ x ∈ t.sheetRoutes f.root dest, f.root.name (src.extend x) ≠ .ok n)
    (sent : f.Sent (f.followed t src dest ++ gone.map .deleted) g) (n : String) :
    n ∈ g.known ↔ (n ∈ f.known ∧ ¬ (f.root.home n).Inside src) ∨ ∃ m ∈ f.followed t src dest, m.name = n := by
  have old {n : String} (said : ∃ m ∈ f.followed t src dest, m.oldName? = some n) : f.root.Holds src n := by
    obtain ⟨x, hx, sheet, named⟩ := exists_mem_followed_oldName.mp said
    exact moved.holds_old hx sheet named
  have new {n : String} (said : ∃ m ∈ f.followed t src dest, m.name = n) : ¬ f.root.Holds src n := by
    obtain ⟨x, hx, named, -⟩ := exists_mem_followed_name.mp said
    intro holds
    exact moved.covers.not_holds_of_apart moved.covers' moved.apart holds (moved.holds_new hx named)
  have taken {n : String} (known : n ∈ f.known) : (f.root.home n).Inside src ↔ f.root.Holds src n :=
    moved.covers.inside_home_iff (decent n known)
  have apart : ∀ m ∈ f.followed t src dest, ∀ m' ∈ f.followed t src dest, m.oldName? ≠ some m'.name :=
    fun m hm m' hm' same => new ⟨m', hm', rfl⟩ (old ⟨m, hm, same⟩)
  rw [sent.known, List.foldl_append, Names.mem_foldl_deleted,
    Names.mem_foldl_arrivals (fun m => kind_of_mem_followed) apart, mem]
  constructor
  · rintro ⟨⟨known, unused⟩ | said, kept⟩
    · refine .inl ⟨known, fun inside => kept ⟨known, inside, fun x hx named => ?_⟩⟩
      have sheet := moved.isSheet_of_isName hx (decent n known) named
      obtain ⟨m, hm, same⟩ := exists_mem_followed_oldName.mpr ⟨x, hx, sheet, named⟩
      exact unused m hm same
    · exact .inr said
  · rintro (⟨known, outside⟩ | said)
    · refine ⟨.inl ⟨known, fun m hm same => ?_⟩, fun ⟨_, inside, _⟩ => outside inside⟩
      exact outside ((taken known).mpr (old ⟨m, hm, same⟩))
    · exact ⟨.inr said, fun ⟨known, inside, _⟩ => new said ((taken known).mp inside)⟩

end Relocation

/-- A directory has moved, whatever is in it by then and whatever style sheets were remembered. Of each style sheet in
it is said that it has a new name or, if it was none at the old place, that it is there, if it can be read; and then
the names that are remembered below the old place and that none of them has had are taken back, in ascending order. No
name is given away and taken back. If everything fits, nothing is remembered below the old place after that, and
besides what there was, what was found at the new one. -/
theorem relocation_exact (faultless : f.outlet.Faultless) (decent : f.Decent) (moved : f.Relocation t src dest) :
    ∃ gone : List String,
      let ms := f.followed t src dest ++ gone.map Message.deleted
      f.messages t (.change (.moved src dest)) = .ok ms ∧
      gone.Pairwise (fun m n => Utf8.encode m < Utf8.encode n) ∧
      (∀ n, n ∈ gone ↔ n ∈ f.known ∧ (f.root.home n).Inside src ∧
        ∀ x ∈ t.sheetRoutes f.root dest, f.root.name (src.extend x) ≠ .ok n) ∧
      (∀ oldName newName, .renamed oldName newName ∈ f.followed t src dest → oldName ∉ gone) ∧
      ((∀ m ∈ ms, Fits f.limit m) → ∃ g, f.handle t (.change (.moved src dest)) = (.ok (), g) ∧
        g.outlet.accepted = f.outlet.accepted ++ ms.flatMap Message.frame ∧
        ∀ n, n ∈ g.known ↔ (n ∈ f.known ∧ ¬ (f.root.home n).Inside src) ∨
          ∃ x ∈ t.sheetRoutes f.root dest, f.root.name (dest.extend x) = .ok n ∧
            (f.root.isSheet (src.extend x) ∨ ∃ content, t.readText (dest.extend x) = .ok content)) := by
  obtain ⟨gone, called, ascending, mem⟩ := moved.exists_gone decent
  refine ⟨gone, called, ascending, mem, ?_, fun fits => ?_⟩
  · intro oldName newName said taken
    obtain ⟨x, hx, -, named⟩ := exists_mem_followed_oldName.mp ⟨_, said, rfl⟩
    exact ((mem oldName).mp taken).2.2 x hx named
  · obtain ⟨g, handled, -, -⟩ := handle_of_faultless faultless called
    have sent := sent_of_handled called fits handled
    refine ⟨g, handled, sent.accepted, fun n => ?_⟩
    rw [moved.mem_known decent mem sent, exists_mem_followed_name]

end

/-! One of the style sheets of the old place has come to the new one. -/
namespace DirectoryMove

theorem decent : feed.Decent := by
  intro n hn
  have known : n ∈ ["d/c", "d/old", "f"] := Names.mem_ofList.mp hn
  refine ⟨feed.root.home n, ?_⟩
  revert n
  decide +kernel

theorem relocated : feed.outlet.Faultless ∧ feed.Decent ∧ feed.Relocation tree src dest ∧
    ∃ g, feed.handle tree (.change (.moved src dest)) = (.ok (), g) ∧
      g.outlet.accepted = [Message.renamed "d/c" "e/c", .deleted "d/old"].flatMap Message.frame ∧
      (∀ n, n ∈ g.known ↔ (n ∈ feed.known ∧ ¬ (feed.root.home n).Inside src) ∨ n = "e/c") ∧
      g.known.toList = ["e/c", "f"] := by
  have faultless : feed.outlet.Faultless := Outlet.Willing.faultless ⟨rfl, rfl⟩
  have moved : feed.Relocation tree src dest :=
    ⟨by decide +kernel, by decide +kernel, by decide +kernel, by decide +kernel⟩
  obtain ⟨gone, called, -, -, -, sent⟩ := relocation_exact faultless decent moved
  have said : feed.messages tree (.change (.moved src dest)) = .ok [.renamed "d/c" "e/c", .deleted "d/old"] := by
    decide +kernel
  rw [Except.ok.inj (called.symm.trans said)] at sent
  obtain ⟨g, handled, accepted, known⟩ := sent (by decide +kernel)
  have left : (feed.handle tree (.change (.moved src dest))).2.known.toList = ["e/c", "f"] := by decide +kernel
  rw [handled] at left
  have routes : tree.sheetRoutes feed.root dest = [[c]] := by decide +kernel
  have sheet : feed.root.isSheet (src.extend [c]) = true := by decide +kernel
  have named : feed.root.name (dest.extend [c]) = .ok "e/c" := by decide +kernel
  refine ⟨faultless, decent, moved, g, handled, accepted, fun n => ?_, left⟩
  rw [known, routes]
  apply or_congr_right
  simp only [List.mem_singleton, exists_eq_left, named, sheet, true_or, and_true, Except.ok.injEq]
  exact eq_comm

end DirectoryMove

end Feed
end StyleFeed
