import Mathlib.Data.List.TakeWhile
import StyleFeed.Proofs.Spelling

/-!
Which paths are style sheets: `Root.isSheet_iff_spelt`. That is a matter of their components below the root, and so
neither of how the path or the root is spelt nor of anything that the root lies in.
-/

namespace StyleFeed

namespace FileName

/-- The extension is what follows the last dot, unless that is the first byte. -/
theorem extension?_eq_some_iff {n : FileName} {e : Bytes} :
    n.extension? = some e ↔ dot ∉ e ∧ ∃ s, s ≠ [] ∧ n.bytes = s ++ dot :: e := by
  constructor
  · intro h
    refine ⟨?_, n.stem, bytes_of_extension h⟩
    obtain ⟨⟨stem, extension⟩, split, rfl⟩ := Option.map_eq_some_iff.mp h
    unfold splitAtDot? at split
    split at split
    · cases split
      intro mem
      simpa using List.mem_takeWhile_imp (List.mem_reverse.mp mem)
    · cases split
  · rintro ⟨plain, s, nonempty, whole⟩
    obtain ⟨before, last, rfl⟩ := List.eq_nil_or_concat s |>.resolve_left nonempty
    have other : ∀ b ∈ e.reverse, (b != dot) = true := by
      intro b mem
      simpa using fun same : b = dot => plain (same ▸ List.mem_reverse.mp mem)
    have back : n.bytes.reverse = e.reverse ++ dot :: last :: before.reverse := by simp [whole]
    rw [extension?, splitAtDot?, back, List.dropWhile_append_of_pos other, List.takeWhile_append_of_pos other]
    simp

theorem isSheet_iff {n : FileName} :
    n.isSheet ↔ n.IsText ∧ ∃ s, s ≠ [] ∧ s.head? ≠ some dot ∧ n.bytes = s ++ Utf8.encode ".css" := by
  have css : Utf8.encode ".css" = dot :: sheetExtension := by decide +kernel
  simp only [isSheet, Bool.and_eq_true, Bool.not_eq_true', isHidden, beq_eq_false_iff_ne, beq_iff_eq,
    extension?_eq_some_iff, css]
  have visible {s : Bytes} (nonempty : s ≠ []) (whole : n.bytes = s ++ dot :: sheetExtension) :
      n.bytes.head? = s.head? := by
    rw [whole, List.head?_append_of_ne_nil _ nonempty]
  constructor
  · rintro ⟨⟨text, notHidden⟩, -, s, nonempty, whole⟩
    exact ⟨text, s, nonempty, visible nonempty whole ▸ notHidden, whole⟩
  · rintro ⟨text, s, nonempty, notHidden, whole⟩
    exact ⟨⟨text, visible nonempty whole ▸ notHidden⟩, by decide, s, nonempty, whole⟩

end FileName

theorem Component.isSheet_iff {cs : List Component} :
    isSheet cs ↔ ∃ before n, cs = before ++ [.name n] ∧ n.isSheet ∧ .name .git ∉ cs := by
  cases cs using List.reverseRec with
  | nil => simp [isSheet]
  | append_singleton before last =>
    cases last with
    | root | here | parent => simp [isSheet]
    | name n => simp [isSheet]

namespace Root

variable {root root' : Root} {p p' : Path}

theorem isSheet_iff_below : root.isSheet p ↔
    ∃ rest, p.components = root.path.components ++ rest ∧ Component.isSheet rest := by
  rw [isSheet, Option.any_eq_true]
  apply exists_congr
  intro rest
  rw [Path.below?, List.isPrefixOf?_eq_some_iff_append_eq, eq_comm]

/-- Whether a path is a style sheet is a matter of its components below the root. -/
theorem isSheet_congr {rest : List Component} (below : p.components = root.path.components ++ rest)
    (below' : p'.components = root'.path.components ++ rest) : root'.isSheet p' = root.isSheet p := by
  rw [Bool.eq_iff_iff, isSheet_iff_below, isSheet_iff_below, below, below']
  simp only [List.append_cancel_left_eq]

theorem isSheet_of_components_eq (same : root'.path.components = root.path.components)
    (same' : p'.components = p.components) : root'.isSheet p' = root.isSheet p := by
  rw [Bool.eq_iff_iff, isSheet_iff_below, isSheet_iff_below, same, same']

/-- A path is a style sheet just if its components are those of the root and some more, of which none is `.git` and the
last one is called something that is text and ends in `.css`, with more before that, which does not begin with a dot.
Neither slashes and dots that say nothing matter, which are all that paths of the same components differ by, nor does
anything that the root lies in. -/
theorem isSheet_iff_spelt (root : Root) (p : Path) :
    (root.isSheet p ↔ ∃ rest before n s, p.components = root.path.components ++ rest ∧ rest = before ++ [.name n] ∧
      n.IsText ∧ n.bytes = s ++ Utf8.encode ".css" ∧ s ≠ [] ∧ s.head? ≠ some dot ∧ .name .git ∉ rest) ∧
    (∀ (root' : Root) (p' : Path), root'.path.Respelt root.path → p'.Respelt p → root'.isSheet p' = root.isSheet p) ∧
    (∀ q q' : Path, q.Respelt q' ↔ q.components = q'.components) ∧
    (∀ (root' : Root) (p' : Path) (rest : List Component), p.components = root.path.components ++ rest →
      p'.components = root'.path.components ++ rest → root'.isSheet p' = root.isSheet p) := by
  refine ⟨?_, ?_, ?_, ?_⟩
  · simp only [isSheet_iff_below, Component.isSheet_iff, FileName.isSheet_iff]
    constructor
    · rintro ⟨rest, below, before, n, split, ⟨text, s, nonempty, visible, whole⟩, noGit⟩
      exact ⟨rest, before, n, s, below, split, text, whole, nonempty, visible, noGit⟩
    · rintro ⟨rest, before, n, s, below, split, text, whole, nonempty, visible, noGit⟩
      exact ⟨rest, below, before, n, split, ⟨text, s, nonempty, visible, whole⟩, noGit⟩
  · intro root' p' same same'
    exact isSheet_of_components_eq same.components_eq same'.components_eq
  · intro q q'
    rw [← Path.same_iff_respelt, Path.same_iff]
  · intro root' p' rest below below'
    exact isSheet_congr below below'

/-! A watched directory in a directory that is called `.git`, and a style sheet in it. -/
namespace InRepository

def watched : Root := ⟨.ofString "/s/.git//r/"⟩

def directory : FileName := ⟨[0x61], by decide⟩

def file : FileName := ⟨Utf8.encode "main.css", by decide +kernel⟩

def sheet : Path := .ofString "/s/.git/r/./a/main.css/"

theorem recognised : watched.isSheet sheet ∧
    watched.isSheet (.ofString "/s/.git/r//a/./main.css") = watched.isSheet sheet ∧
    (⟨.ofString "/t"⟩ : Root).isSheet (.ofString "/t/a/main.css") = watched.isSheet sheet := by
  obtain ⟨exact, respelt, respelt_iff, anywhere⟩ := isSheet_iff_spelt watched sheet
  refine ⟨?_, ?_, ?_⟩
  · apply exact.mpr
    exact ⟨[.name directory, .name file], [.name directory], file, Utf8.encode "main", by decide +kernel⟩
  · exact respelt watched _ (.refl _) ((respelt_iff _ _).mpr (by decide +kernel))
  · exact anywhere ⟨.ofString "/t"⟩ _ [.name directory, .name file] (by decide +kernel) (by decide +kernel)

end InRepository

end Root
end StyleFeed
