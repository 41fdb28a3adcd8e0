import StyleFeed.Proofs.Identity

/-!
The walk goes into no directory that is called `.git`, and still it finds every style sheet that there is, each once:
`Tree.sheets_exact`. For what may be a style sheet is asked below the root only, and so is the walk.
-/

namespace StyleFeed

/-- The names lead from the directory at the route to a file, through directories only. -/
inductive Tree.LeadsToFile (t : Tree) : Route → Route → Prop
  | file {k : Route} {n : FileName} {content : Bytes} (here : t.lookup? (k ++ [n]) = some (.file content)) :
      LeadsToFile t k [n]
  | directory {k r : Route} {n : FileName} (inside : t.lookup? (k ++ [n]) = some .directory)
      (rest : LeadsToFile t (k ++ [n]) r) : LeadsToFile t k (n :: r)

namespace Tree

/-- The routes from `k` to the files below it that are at most `depth` names long, whatever the directories are
called. -/
def everyFileWithin (t : Tree) : Nat → Route → List Route
  | 0, _ => []
  | depth + 1, k =>
    (t.children k).flatMap fun (n, e) =>
      match e with
      | .file _ => [[n]]
      | .link _ => []
      | .directory => (t.everyFileWithin depth (k ++ [n])).map (n :: ·)

def everyFile (t : Tree) (k : Route) : List Route := t.everyFileWithin t.height k

variable {t : Tree} {k r : Route}

theorem leadsToFile_iff : t.LeadsToFile k r ↔ r ≠ [] ∧ ∃ content, t.lookup? (k ++ r) = some (.file content) := by
  constructor
  · intro leads
    induction leads with
    | file here => exact ⟨List.cons_ne_nil _ _, _, here⟩
    | directory inside rest ih =>
      obtain ⟨-, content, here⟩ := ih
      rw [List.append_assoc] at here
      exact ⟨List.cons_ne_nil _ _, content, here⟩
  · rintro ⟨nonempty, content, here⟩
    induction r generalizing k with
    | nil => exact absurd rfl nonempty
    | cons n rest ih =>
      by_cases last : rest = []
      · subst last
        exact .file here
      · rw [List.append_cons] at here
        exact .directory (lookup?_of_below last here) (ih last here)

theorem mem_everyFileWithin {depth : Nat} : r ∈ t.everyFileWithin depth k ↔ r.length ≤ depth ∧ t.LeadsToFile k r := by
  induction depth generalizing k r with
  | zero =>
    rw [everyFileWithin, Nat.le_zero, List.length_eq_zero_iff]
    constructor
    · exact fun found => absurd found List.not_mem_nil
    · rintro ⟨rfl, leads⟩
      cases leads
  | succ depth ih =>
    rw [everyFileWithin, List.mem_flatMap]
    constructor
    · rintro ⟨⟨n, e⟩, child, found⟩
      rw [mem_children] at child
      cases e with
      | link target => cases found
      | file content =>
        obtain rfl := List.mem_singleton.mp found
        exact ⟨Nat.le_add_left 1 depth, .file child⟩
      | directory =>
        obtain ⟨rest, below, rfl⟩ := List.mem_map.mp found
        obtain ⟨short, leads⟩ := ih.mp below
        exact ⟨Nat.succ_le_succ short, .directory child leads⟩
    · rintro ⟨short, leads⟩
      cases leads with
      | file here => exact ⟨_, mem_children.mpr here, List.mem_singleton_self _⟩
      | directory inside rest =>
        have found := ih.mpr ⟨Nat.le_of_succ_le_succ short, rest⟩
        exact ⟨_, mem_children.mpr inside, List.mem_map_of_mem found⟩

theorem mem_everyFile : r ∈ t.everyFile k ↔ t.LeadsToFile k r := by
  rw [everyFile, mem_everyFileWithin]
  apply and_iff_right_of_imp
  intro leads
  obtain ⟨nonempty, content, here⟩ := leadsToFile_iff.mp leads
  have whole := length_le_height ((mem_entries_iff (by simp [nonempty])).mpr here)
  rw [List.length_append] at whole
  omega

/-- To go into no directory called `.git` is to leave out the routes with that name on them. -/
theorem filesWithin_eq_filter (t : Tree) (depth : Nat) (k : Route) :
    t.filesWithin depth k = (t.everyFileWithin depth k).filter (.git ∉ ·) := by
  induction depth generalizing k with
  | zero => rfl
  | succ depth ih =>
    rw [filesWithin, everyFileWithin]
    induction t.children k with
    | nil => rfl
    | cons child rest same =>
      obtain ⟨n, e⟩ := child
      rw [List.flatMap_cons, List.filter_append, ← same]
      by_cases git : n = .git
      · cases e <;> simp [git, List.filter_map, Function.comp_def]
      · cases e <;> simp [git, Ne.symm git, ih, List.filter_map, Function.comp_def]

end Tree

theorem Component.git_notMem_of_isSheet {cs : List Component} (h : isSheet cs) : .name .git ∉ cs := by
  unfold isSheet at h
  split at h
  · simp only [Bool.and_eq_true, Bool.not_eq_true', Bool.eq_false_iff, ne_eq, List.contains_iff_mem] at h
    exact h.2
  · cases h

/-- From a place at or below the root no style sheet is reached through `.git`. -/
theorem Root.git_notMem_of_isSheet {root : Root} {dir : Path} {r : Route} (inside : (dir.below? root.path).isSome)
    (sheet : root.isSheet (dir.extend r)) : .git ∉ r := by
  obtain ⟨cs, below⟩ := Option.isSome_iff_exists.mp inside
  have whole : (dir.extend r).below? root.path = some (cs ++ r.map .name) := by
    rw [Path.below?, List.isPrefixOf?_eq_some_iff_append_eq] at below ⊢
    rw [Path.components_extend, ← below, List.append_assoc]
  intro git
  rw [isSheet, whole, Option.any_some] at sheet
  apply Component.git_notMem_of_isSheet sheet
  exact List.mem_append_right cs (List.mem_map_of_mem git)

namespace Path

theorem extend_injective {dir : Path} {r s : Route} (same : (dir.extend r).same (dir.extend s)) : r = s := by
  rw [same_iff, components_extend, components_extend] at same
  have names := List.append_cancel_left same
  exact List.map_injective_iff.mpr (fun _ _ => Component.name.inj) names

end Path

namespace Tree

section
variable {t : Tree} {root : Root} {dir : Path} {top : Route}

/-- A scan of a directory at or below the root, which a link may lead to, finds the files that may be style sheets and
that their names lead to through directories only. It finds what going everywhere and asking of each file would,
in the same order, and no place twice. -/
theorem sheets_exact (inside : (dir.below? root.path).isSome) (directory : t.resolve dir = .ok (top, .directory)) :
    (t.sheets root dir).Pairwise (fun p q => ¬ p.same q) ∧
    (∀ p ∈ t.sheets root dir, ∃ r, p = dir.extend r) ∧
    (∀ r, dir.extend r ∈ t.sheets root dir ↔ t.LeadsToFile top r ∧ root.isSheet (dir.extend r)) ∧
    t.sheets root dir = ((t.everyFile top).map dir.extend).filter root.isSheet ∧
    ∀ r, r ∈ t.everyFile top ↔ t.LeadsToFile top r := by
  have routes : t.sheetRoutes root dir = (t.everyFile top).filter fun r => root.isSheet (dir.extend r) := by
    rw [sheetRoutes, walk, directory]
    simp only
    rw [filesWithin_eq_filter, List.filter_filter, everyFile]
    apply List.filter_congr
    intro r _
    rw [Bool.eq_iff_iff, Bool.and_eq_true, decide_eq_true_iff]
    exact and_iff_left_of_imp (Root.git_notMem_of_isSheet inside)
  have whole : t.sheets root dir = ((t.everyFile top).map dir.extend).filter root.isSheet := by
    rw [sheets, routes, List.filter_map]
    rfl
  refine ⟨?_, ?_, ?_, whole, fun r => mem_everyFile⟩
  · rw [sheets, List.pairwise_map]
    apply (t.nodup_sheetRoutes root dir).imp
    intro r s other same
    exact other (Path.extend_injective same)
  · intro p found
    obtain ⟨r, -, rfl⟩ := List.mem_map.mp found
    exact ⟨r, rfl⟩
  · intro r
    rw [whole, List.mem_filter, List.mem_map]
    apply and_congr_left
    intro _
    constructor
    · rintro ⟨s, found, same⟩
      obtain rfl := Path.extend_injective (Path.same_iff.mpr (congrArg Path.components same))
      exact mem_everyFile.mp found
    · intro leads
      exact ⟨r, mem_everyFile.mpr leads, rfl⟩

end

/-! A link below the root leads to a directory outside it, in which there are a `.git` directory, a hidden one, one that
is called as a style sheet is, and a link back. -/
namespace LinkedPlace

open Feed.TwoDirectories (sheet)

def top : FileName := ⟨[0x76], by decide⟩
def place : FileName := ⟨[0x6f], by decide⟩
def link : FileName := ⟨[0x6c], by decide⟩
def hidden : FileName := ⟨[dot, 0x68], by decide⟩

def tree : Tree where
  entries := [([top], .directory), ([top, link], .link (.ofString "/o")), ([place], .directory),
    ([place, .git], .directory), ([place, .git, sheet], .file []), ([place, sheet], .directory),
    ([place, sheet, sheet], .file []), ([place, hidden], .directory), ([place, hidden, sheet], .file []),
    ([place, link], .link (.ofString "/o"))]
  workplace := []
  distinct := by decide
  rooted := by decide

def root : Root := ⟨.ofString "/v"⟩

def dir : Path := .ofString "/v/l"

theorem scanned : (dir.below? root.path).isSome ∧ tree.resolve dir = .ok ([place], .directory) ∧
    tree.sheets root dir = [dir.extend [sheet, sheet], dir.extend [hidden, sheet]] ∧
    dir.extend [.git, sheet] ∉ tree.sheets root dir ∧ tree.LeadsToFile [place] [.git, sheet] := by
  have inside : (dir.below? root.path).isSome := by decide +kernel
  have directory : tree.resolve dir = .ok ([place], .directory) := by decide +kernel
  obtain ⟨-, -, found, all, every⟩ := sheets_exact inside directory
  refine ⟨inside, directory, ?_, ?_, ?_⟩
  · rw [all]
    decide +kernel
  · intro mem
    exact absurd ((found _).mp mem).2 (by decide +kernel)
  · exact (every _).mp (by decide +kernel)

end LinkedPlace

end Tree
end StyleFeed
