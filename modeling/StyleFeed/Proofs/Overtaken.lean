import StyleFeed.Proofs.Grounds
import StyleFeed.Proofs.Sending
import StyleFeed.Proofs.Splitting

/-!
A move that is handled when nothing is at its destination any more. What was moved is asked of the tree, which then
answers that it was no directory, so that the names below the old place are not taken back. They are left exactly as
they were, but for one that the move itself may bring (`Feed.cleared_iff_of_overtaken`).
-/

namespace StyleFeed

open Message (Fits)

namespace Message

/-- The message takes the name back. -/
def Retracts (m : Message) (n : String) : Prop := m = .deleted n ∨ ∃ new, m = .renamed n new

@[simp] theorem retracts_deleted {name n : String} : (deleted name).Retracts n ↔ name = n := by
  simp [Retracts]

@[simp] theorem retracts_renamed {oldName newName n : String} :
    (renamed oldName newName).Retracts n ↔ oldName = n := by
  simp [Retracts]

end Message

namespace Route

variable {r : Route}

theorem joined_ne_empty_of_isSheet (h : r.IsSheet) : r.joined ≠ "" := by
  intro nothing
  obtain ⟨d, n, rfl, sheet⟩ := h.exists_concat
  have split := splitOn_joined (r := d ++ [n]) (by simp)
  have shown : n.text.toList ∈ (texts (d ++ [n])).map String.toList :=
    List.mem_map_of_mem (List.mem_map_of_mem (by simp))
  rw [← split, nothing] at shown
  exact n.text_ne_nil (List.mem_singleton.mp shown)

/-- No style sheet is called as if it lay below itself. -/
theorem not_holds_logicalName (h : r.IsSheet) : ¬ r.Holds r.logicalName := by
  obtain ⟨d, n, rfl, sheet⟩ := h.exists_concat
  obtain ⟨m, -, -, short⟩ := logicalName_concat (d := d) sheet
  rintro ⟨more, whole⟩
  have split := splitOn_joined (r := d ++ [m]) (by simp)
  rw [← short, ← whole, List.append_assoc, List.singleton_append, List.splitOn_append_cons_self,
    splitOn_joined (by simp)] at split
  have parts := congrArg List.length split
  have rest := List.length_pos_iff.mpr (List.splitOn_ne_nil '/' more)
  simp only [texts, List.length_append, List.length_map, List.length_singleton] at parts
  omega

end Route

namespace Root

/-- What may be below a style sheet is not called as it is. -/
theorem ne_of_holds {root : Root} {p : Path} {name n : String} (sheet : root.isSheet p)
    (named : root.name p = .ok name) (holds : root.Holds p n) : name ≠ n := by
  rintro rfl
  obtain ⟨place, relative, below⟩ := holds
  obtain ⟨r, isSheet, logical, joined⟩ := exists_route_of_isSheet sheet
  obtain rfl := Except.ok.inj (logical.symm.trans named)
  obtain rfl := Except.ok.inj (joined.symm.trans relative)
  rcases below with nothing | holds
  · exact Route.joined_ne_empty_of_isSheet isSheet nothing
  · exact Route.not_holds_logicalName isSheet holds

end Root

namespace Tree

variable {t : Tree} {p : Path} (gone : t.exists p = false)
include gone

theorem isDirectory_of_gone : t.isDirectory p = false := by
  unfold «exists» at gone
  unfold isDirectory
  cases found : t.resolve p with
  | error missing => rfl
  | ok what =>
    rw [found] at gone
    cases gone

theorem readText_of_gone : ∃ cause, t.readText p = .error cause := by
  have unread : ∃ cause, t.read p = .error cause := by
    rw [read]
    split
    · exact ⟨_, rfl⟩
    cases found : t.resolve p with
    | error missing => exact ⟨_, rfl⟩
    | ok what =>
      rw [«exists», found] at gone
      cases gone
  obtain ⟨cause, unread⟩ := unread
  exact ⟨cause, by rw [readText, unread]; rfl⟩

end Tree

namespace Feed

section
variable {f g : Feed} {t : Tree} {ms : List Message} {src dest : Path}

/-- No name below the path is left, and each one that was there is taken back by a message. -/
structure Cleared (f : Feed) (p : Path) (ms : List Message) (g : Feed) : Prop where
  left : ∀ n, f.root.Holds p n → n ∉ g.known
  retracted : ∀ n ∈ f.known, f.root.Holds p n → ∃ m ∈ ms, m.Retracts n

/-- What can be said when nothing is at the destination: that one style sheet has moved, or is gone. -/
theorem exists_said_of_gone (f : Feed) (src : Path) (gone : t.exists dest = false) :
    ∃ said : Option Message, f.messages t (.change (.moved src dest)) = .ok said.toList ∧
      ∀ n, f.root.Holds src n → (∀ m ∈ said, ¬ m.Retracts n) ∧
        (n ∈ said.toList.foldl Names.record f.known ↔
          n ∈ f.known ∨ f.root.isSheet src ∧ f.root.isSheet dest ∧ f.root.name dest = .ok n) := by
  have asFile {m : Option Message} (said : f.movedFile t src dest = .ok m) :=
    messages_moved_file (Tree.isDirectory_of_gone gone) said
  rcases f.movedFile_cases t src dest with
    ⟨sheet, sheet', oldName, newName, named, named', said⟩ | ⟨sheet, noSheet', name, named, said⟩ |
      ⟨noSheet, sheet', said⟩ | ⟨noSheet, -, said⟩
  · refine ⟨_, asFile said, ?_⟩
    intro n holds
    have other := Root.ne_of_holds sheet named holds
    split
    · rename_i same
      subst same
      simp [named', other]
    · simp [Names.record, sheet, sheet', named', other, Ne.symm other, or_comm, eq_comm]
  · refine ⟨_, asFile said, ?_⟩
    intro n holds
    have other := Root.ne_of_holds sheet named holds
    simp [Names.record, noSheet', other, Ne.symm other]
  · have nothing : f.report? t dest = none := by
      obtain ⟨cause, unread⟩ := Tree.readText_of_gone gone
      rw [report?, unread]
      split
      · rename_i read
        cases read
      · rfl
    refine ⟨none, asFile (said.trans (congrArg _ nothing)), ?_⟩
    intro n _
    simp [noSheet]
  · refine ⟨none, asFile said, ?_⟩
    intro n _
    simp [noSheet]

/-- The deletion of a place takes back whatever is known below it. -/
theorem cleared_by_deletion (called : f.messages t (.change (.deleted src)) = .ok ms)
    (fits : ∀ m ∈ ms, Fits f.limit m) (handled : f.handle t (.change (.deleted src)) = (.ok (), g)) :
    f.Cleared src ms g := by
  have sent := sent_of_handled called fits handled
  obtain rfl := Except.ok.inj ((f.messages_deletion t src).symm.trans called)
  have within {n : String} (known : n ∈ f.known) (holds : f.root.Holds src n) :
      n ∈ f.root.ownName src ++ (f.known.filter (f.root.Holds src ·)).toList :=
    List.mem_append_right _ (Names.mem_filter_iff.mpr ⟨known, holds⟩)
  constructor
  · intro n holds known
    rw [sent.known, Names.mem_foldl_deleted] at known
    exact known.2 (within known.1 holds)
  · intro n known holds
    exact ⟨.deleted n, List.mem_map_of_mem (within known holds), .inl rfl⟩

/-- A move of which nothing is left at its destination takes back no name below its old place, and all that were known
there still are. The place is cleared only if none was, and if the move is not into it. -/
theorem cleared_iff_of_overtaken (gone : t.exists dest = false)
    (called : f.messages t (.change (.moved src dest)) = .ok ms) (fits : ∀ m ∈ ms, Fits f.limit m)
    (handled : f.handle t (.change (.moved src dest)) = (.ok (), g)) :
    (∀ n, f.root.Holds src n → (∀ m ∈ ms, ¬ m.Retracts n) ∧ (n ∈ g.known ↔
      n ∈ f.known ∨ f.root.isSheet src ∧ f.root.isSheet dest ∧ f.root.name dest = .ok n)) ∧
    (f.Cleared src ms g ↔ ∀ n, f.root.Holds src n →
      n ∉ f.known ∧ ¬ (f.root.isSheet src ∧ f.root.isSheet dest ∧ f.root.name dest = .ok n)) := by
  have sent := sent_of_handled called fits handled
  obtain ⟨said, same, about⟩ := exists_said_of_gone f src gone
  obtain rfl := Except.ok.inj (same.symm.trans called)
  have kept : ∀ n, f.root.Holds src n → (n ∈ g.known ↔
      n ∈ f.known ∨ f.root.isSheet src ∧ f.root.isSheet dest ∧ f.root.name dest = .ok n) := by
    intro n holds
    rw [sent.known]
    exact (about n holds).2
  refine ⟨?_, ?_, ?_⟩
  · intro n holds
    exact ⟨fun m hm => (about n holds).1 m (Option.mem_toList.mp hm), kept n holds⟩
  · intro cleared n holds
    exact not_or.mp ((not_congr (kept n holds)).mp (cleared.left n holds))
  · intro free
    constructor
    · intro n holds
      exact (not_congr (kept n holds)).mpr (not_or.mpr (free n holds))
    · intro n known holds
      exact absurd known (free n holds).1

end

/-! Moves of which nothing is left when they are handled. -/
namespace DirectoryGone

open DirectoryMove (top feed src dest)

def tree : Tree where
  entries := [([top], .directory)]
  workplace := []
  distinct := by decide
  rooted := by decide

/-- A name is known in a directory that is called as a style sheet is. -/
def likeSheet : Feed := { feed with known := .ofList ["d.css/c"] }

def old : Path := .ofString "/t/d.css"
def new : Path := .ofString "/t/e.css"

/-- There is a message then, but about no style sheet in the directory. -/
theorem kept_beside_rename : ∃ g, likeSheet.handle tree (.change (.moved old new)) = (.ok (), g) ∧
    likeSheet.messages tree (.change (.moved old new)) = .ok [.renamed "d" "e"] ∧ "d.css/c" ∈ g.known ∧
    ¬ likeSheet.Cleared old [.renamed "d" "e"] g := by
  have gone : tree.exists new = false := by decide +kernel
  have called : likeSheet.messages tree (.change (.moved old new)) = .ok [.renamed "d" "e"] := by decide +kernel
  have fits : ∀ m ∈ [Message.renamed "d" "e"], Fits likeSheet.limit m := by
    intro m hm
    obtain rfl := List.mem_singleton.mp hm
    decide +kernel
  obtain ⟨g, handled, -⟩ := handle_of_faultless (Outlet.Willing.faultless ⟨rfl, rfl⟩) called
  have holds : likeSheet.root.Holds old "d.css/c" := ⟨"d.css", by decide +kernel, .inr (by decide)⟩
  have known : "d.css/c" ∈ likeSheet.known := by decide
  obtain ⟨about, cleared⟩ := cleared_iff_of_overtaken gone called fits handled
  refine ⟨g, handled, called, (about _ holds).2.mpr (.inl known), ?_⟩
  intro all
  exact (cleared.mp all _ holds).1 known

/-- The directory `d`, with two known names in it, has become `e`, and `e` is gone again. -/
def handled : Except Fault Unit × Feed := feed.handle tree (.change (.moved src dest))

/-- Between `d` and `e` the directory was called `m`. -/
def midway : Path := .ofString "/t/m"

/-- The two moves, handled when `c.css` is in `e` already. -/
def followed : Except Fault Unit × Feed :=
  feed.run [(DirectoryMove.tree, .change (.moved src midway)), (DirectoryMove.tree, .change (.moved midway dest))]

/-- Nothing is left of either place, the event ends well and no message is dropped, yet the names are not taken back;
nor are they where the directory has moved on before the first of two moves is handled. -/
theorem not_cleared_when_gone :
    tree.exists src = false ∧ tree.exists dest = false ∧
    feed.messages tree (.change (.moved src dest)) = .ok [] ∧ handled.1 = .ok () ∧
    ¬ feed.Cleared src [] handled.2 ∧ followed.1 = .ok () ∧ followed.2.known.toList = ["d/c", "d/old", "e/c", "f"] := by
  have holds : feed.root.Holds src "d/c" := ⟨"d", by decide +kernel, .inr (by decide)⟩
  have kept : "d/c" ∈ handled.2.known := by decide +kernel
  refine ⟨by decide +kernel, by decide +kernel, by decide +kernel, by decide +kernel, ?_, by decide +kernel,
    by decide +kernel⟩
  intro cleared
  exact cleared.left "d/c" holds kept

end DirectoryGone

end Feed
end StyleFeed
