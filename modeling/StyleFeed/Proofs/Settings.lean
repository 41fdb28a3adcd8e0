import Mathlib.Data.List.Permutation
import StyleFeed.Fallible
import StyleFeed.Proofs.Documents
import StyleFeed.Proofs.Numerals
import StyleFeed.Proofs.Utf8
import StyleFeed.Tuning

/-!
What a tuning file comes to that gives both keys a whole number. If both numbers count they are taken, and else none
of the file is (`Tuning.whole_or_unset`): a number of more than 64 bits leaves no document, and one below zero no
setting.
-/

namespace StyleFeed
namespace Tuning

open Toml (IsEntry Item Scalar Spells entryOf?)

theorem isEntry_toString (key : String) (named : key.toList ≠ []) (bare : key.toList.all Toml.isBareKey)
    (n : Int) : IsEntry key.toList (toString n).toList := by
  obtain ⟨c, cs, word, first, digits⟩ := Scalar.exists_toString n
  rw [word]
  refine ⟨named, List.all_eq_true.mp bare, nofun, List.forall_mem_cons.mpr ⟨?_, fun d mem => ?_⟩⟩
  · rcases first with rfl | digit
    · decide
    · simp [Toml.isWord, Char.isAlphanum, digit]
  · simp [Toml.isWord, Char.isAlphanum, digits d mem]

theorem entryOf?_toString (key : String) (n : Int) :
    entryOf? (key, toString n) = if Scalar.Fits n then some (key, .scalar (.integer n)) else none := by
  rw [entryOf?, Scalar.ofWord?_toString]
  split <;> rfl

theorem mapM_entryOf?_pair (key₁ key₂ : String) (m n : Int) :
    [(key₁, toString m), (key₂, toString n)].mapM entryOf? =
      if Scalar.Fits m ∧ Scalar.Fits n then some [(key₁, .scalar (.integer m)), (key₂, .scalar (.integer n))]
      else none := by
  rw [List.mapM_cons, List.mapM_cons, List.mapM_nil, entryOf?_toString, entryOf?_toString]
  by_cases first : Scalar.Fits m <;> by_cases second : Scalar.Fits n <;> simp [first, second]

/-- The number can be read and kept. -/
def Counts (n : Int) : Prop := 0 ≤ n ∧ n < 0x8000000000000000

instance (n : Int) : Decidable (Counts n) := inferInstanceAs (Decidable (_ ∧ _))

theorem fits_of_counts {n : Int} (counts : Counts n) : Scalar.Fits n :=
  ⟨by have := counts.1; omega, counts.2⟩

theorem setting_integer {es : Toml.Entries} {key : String} {n : Int} (fits : Scalar.Fits n)
    (found : es.lookup key = some (.scalar (.integer n))) :
    setting es key = if Counts n then some (some n.toNat) else none := by
  have : Counts n ↔ 0 ≤ n := ⟨And.left, fun nonnegative => ⟨nonnegative, fits.2⟩⟩
  simp only [setting, found, this]

section
variable {a b : Int} {lines : List String} {es : List (String × String)}

theorem ofText?_spells (spelt : Spells lines es)
    (both : es.Perm [("resync_interval_secs", toString a), ("rename_grace_ms", toString b)]) :
    ofText? ("\n".intercalate lines) =
      if Counts a ∧ Counts b then some ⟨some a.toNat, some b.toNat⟩ else none := by
  have entries : ∀ e ∈ es, IsEntry e.1.toList e.2.toList := by
    intro e mem
    rcases List.mem_pair.mp (both.mem_iff.mp mem) with rfl | rfl
    · exact isEntry_toString "resync_interval_secs" (by decide) (by decide) a
    · exact isEntry_toString "rename_grace_ms" (by decide) (by decide) b
  have distinct : (es.map Prod.fst).Nodup := (both.map Prod.fst).nodup_iff.mpr (by simp)
  rw [ofText?, Toml.parse_spells spelt entries distinct]
  by_cases fits : Scalar.Fits a ∧ Scalar.Fits b
  · obtain ⟨items, read, interval, grace⟩ : ∃ items, es.mapM entryOf? = some items ∧
        items.lookup "resync_interval_secs" = some (.scalar (.integer a)) ∧
        items.lookup "rename_grace_ms" = some (.scalar (.integer b)) := by
      rcases List.perm_pair.mp both with rfl | rfl
      · exact ⟨_, (mapM_entryOf?_pair ..).trans (if_pos fits), rfl, rfl⟩
      · exact ⟨_, (mapM_entryOf?_pair ..).trans (if_pos fits.symm), rfl, rfl⟩
    simp only [read, Option.bind_some, bind, setting_integer fits.1 interval, setting_integer fits.2 grace]
    by_cases countsA : Counts a <;> by_cases countsB : Counts b <;> simp [countsA, countsB]
  · have unread : es.mapM entryOf? = none := by
      rcases List.perm_pair.mp both with rfl | rfl
      · exact (mapM_entryOf?_pair ..).trans (if_neg fits)
      · exact (mapM_entryOf?_pair ..).trans (if_neg fun fits' => fits fits'.symm)
    rw [unread, if_neg fun counts => fits ⟨fits_of_counts counts.1, fits_of_counts counts.2⟩]
    rfl

variable {t : Tree} {root : Path}

/-- Both numbers are taken if both count, and else none is. A zero that is taken means no rescan, and what is not taken
means what a missing file means. -/
theorem whole_or_unset (spelt : Spells lines es)
    (both : es.Perm [("resync_interval_secs", toString a), ("rename_grace_ms", toString b)])
    (held : t.read (root.join file) = .ok (Utf8.encode ("\n".intercalate lines))) :
    load t root = (if Counts a ∧ Counts b then ⟨some a.toNat, some b.toNat⟩ else unset) ∧
    (load t root).rescanEvery =
      (if Counts a ∧ Counts b ∧ a ≠ 0 then some (Clock.seconds a.toNat) else none) ∧
    (load t root).grace = Clock.milliseconds (if Counts a ∧ Counts b then b.toNat else 50) := by
  have text : t.readText (root.join file) = .ok ("\n".intercalate lines) := by
    simp only [Tree.readText, held, ok_bind, Utf8.decode?_encode]
  have loaded : load t root = if Counts a ∧ Counts b then ⟨some a.toNat, some b.toNat⟩ else unset := by
    simp only [load, text, ofText?_spells spelt both]
    split <;> rfl
  refine ⟨loaded, ?_⟩
  rw [loaded]
  by_cases counts : Counts a ∧ Counts b
  · have positive : a ≠ 0 ↔ 0 < a.toNat := by
      have := counts.1.1
      omega
    rw [if_pos counts, if_pos counts]
    refine ⟨?_, rfl⟩
    by_cases zero : a = 0
    · rw [if_neg fun h => h.2.2 zero, zero]
      rfl
    · rw [if_pos ⟨counts.1, counts.2, zero⟩, rescanEvery, Option.filter_some,
        if_pos (decide_eq_true (positive.mp zero)), Option.map_some]
  · rw [if_neg counts, if_neg counts, if_neg fun h => counts ⟨h.1, h.2.1⟩]
    exact ⟨rfl, rfl⟩

end

/-! A file at the top of a tree, with a comment before its entries and a blank line between them. -/
namespace Sample

def lines (a b : Int) : List String :=
  ["\t# tuning", "rename_grace_ms" ++ " = " ++ toString b, " ", "resync_interval_secs" ++ " = " ++ toString a, ""]

def name : FileName := ⟨file.bytes, by decide⟩

def tree (a b : Int) : Tree where
  entries := [([name], .file (Utf8.encode ("\n".intercalate (lines a b))))]
  workplace := []
  distinct := by simp
  rooted := by simp

def root : Path := .ofString "/"

theorem spells_lines (a b : Int) :
    Spells (lines a b) [("rename_grace_ms", toString b), ("resync_interval_secs", toString a)] := by
  have remark : Toml.IsFiller "\t# tuning".toList :=
    @Toml.IsFiller.comment ['\t'] " tuning".toList (by simp) (by simp)
  have blank : Toml.IsFiller " ".toList := .blank (by simp)
  have empty : Toml.IsFiller "".toList := .blank (by simp)
  exact .filler remark (.entry _ _ (.filler blank (.entry _ _ (.filler empty .nil))))

theorem read_tree (a b : Int) :
    (tree a b).read (root.join file) = .ok (Utf8.encode ("\n".intercalate (lines a b))) := rfl

theorem whole_or_unset_at_bounds :
    (load (tree 300 20) root = ⟨some 300, some 20⟩ ∧
      (load (tree 300 20) root).rescanEvery = some (Clock.seconds 300) ∧
      (load (tree 300 20) root).grace = Clock.milliseconds 20) ∧
    (load (tree 0 0x7fffffffffffffff) root = ⟨some 0, some 0x7fffffffffffffff⟩ ∧
      (load (tree 0 0x7fffffffffffffff) root).rescanEvery = none) ∧
    (load (tree 300 (-1)) root = unset ∧ (load (tree 300 (-1)) root).grace = Clock.milliseconds 50) ∧
    load (tree 0x8000000000000000 20) root = unset := by
  have of (a b : Int) := whole_or_unset (spells_lines a b) (.swap ..) (read_tree a b)
  exact ⟨of 300 20, ⟨(of 0 0x7fffffffffffffff).1, (of 0 0x7fffffffffffffff).2.1⟩,
    ⟨(of 300 (-1)).1, (of 300 (-1)).2.2⟩, (of 0x8000000000000000 20).1⟩

end Sample
end Tuning
end StyleFeed
