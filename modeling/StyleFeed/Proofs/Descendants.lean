import StyleFeed.Proofs.Places

/-!
What is taken back of a directory, which may have gone together with everything in it. The remembered names are told by
their text alone: those that begin with what the directory is called, extension and all, and a slash. They are the names
of the style sheets whose paths go on from that of the directory, and no others (`Feed.takes_back_descendants`).
-/

namespace StyleFeed

namespace Root

variable {root : Root} {dir : Path} {n : String}

/-- Nothing is looked up outside the root. -/
theorem within_of_holds (holds : root.Holds dir n) : dir.Within root.path := by
  obtain ⟨place, found, -⟩ := holds
  rw [relativeName, below] at found
  rw [Path.Within]
  cases inside : dir.below? root.path with
  | none =>
    rw [inside] at found
    cases found
  | some cs => rfl

/-- The root has no name of its own, so that every name may be below it. -/
theorem holds_of_same (top : dir.same root.path) (n : String) : root.Holds dir n := by
  have leads : root.Leads [] dir := by
    rw [Leads, Path.below?_eq_some_iff, List.map_nil, List.append_nil]
    exact (Path.same_iff.mp top).symm
  exact (leads.holds_iff (List.forall_mem_nil _)).mpr (.inl rfl)

end Root

namespace Feed

/-- What was reported are style sheets, each on a path that goes down from the root by names that are text. If a
directory is on such a path too, the names taken back of it are those of the style sheets whose paths go on from its
own, each once and in ascending order of bytes; a deletion sends them after the name that the path may have itself. Of
the root every name is taken back, and of a place outside it, be it above, none. -/
theorem takes_back_descendants {f : Feed} {sheets : List Path} (dir : Path)
    (covered : ∀ p ∈ sheets, f.root.isSheet p ∧ f.root.Covers p)
    (known : ∀ n, n ∈ f.known ↔ ∃ p ∈ sheets, f.root.name p = .ok n) :
    ∃ gone : Names, f.knownBelow dir = .ok gone ∧
      (∀ t, f.messages t (.change (.deleted dir)) = .ok ((f.root.ownName dir ++ gone.toList).map .deleted)) ∧
      gone.toList.Pairwise (fun m n => Utf8.encode m < Utf8.encode n) ∧
      (f.root.Covers dir → ∀ n, n ∈ gone ↔ ∃ p ∈ sheets, f.root.name p = .ok n ∧ p.Inside dir) ∧
      (dir.same f.root.path → gone = f.known) ∧
      (¬ dir.Within f.root.path → gone = .empty) := by
  refine ⟨_, f.knownBelow_eq dir, fun t => f.messages_deletion t dir, ?_, ?_, ?_, ?_⟩
  · exact (Names.ascending _).imp Utf8.encode_lt
  · intro covers n
    rw [Names.mem_filter_iff, known]
    constructor
    · rintro ⟨⟨p, hp, named⟩, holds⟩
      obtain ⟨sheet, covers'⟩ := covered p hp
      exact ⟨p, hp, named, (covers.inside_iff_holds covers' sheet named).mpr holds⟩
    · rintro ⟨p, hp, named, inside⟩
      obtain ⟨sheet, covers'⟩ := covered p hp
      exact ⟨⟨p, hp, named⟩, (covers.inside_iff_holds covers' sheet named).mp inside⟩
  · intro top
    apply Names.ext
    intro n
    rw [Names.mem_filter_iff]
    exact and_iff_left (Root.holds_of_same top n)
  · intro outside
    apply Names.ext
    intro n
    rw [Names.mem_filter_iff]
    simp only [Names.not_mem_empty, iff_false, not_and]
    exact fun _ holds => outside (Root.within_of_holds holds)

/-! A directory has taken the place of a style sheet, and beside it are directories whose names begin alike. -/
namespace Alike

def sheets : List Path :=
  ["/t/a.css", "/t//a.css/b/c.css", "/t/a.v2/./d.css", "/t/a/e.css/", "/t/ab/f.css"].map .ofString

def feed : Feed where
  root := ⟨.ofString "/t"⟩
  limit := 1024
  known := .ofList ["a", "a.css/b/c", "a.v2/d", "a/e", "ab/f"]
  outlet := .willing

def dir : Path := .ofString "/t/a.css/"

theorem only_descendants : (∀ p ∈ sheets, feed.root.isSheet p ∧ feed.root.Covers p) ∧
    (∀ n, n ∈ feed.known ↔ ∃ p ∈ sheets, feed.root.name p = .ok n) ∧
    (∀ n, (∃ p ∈ sheets, feed.root.name p = .ok n ∧ p.Inside dir) ↔ n = "a.css/b/c") ∧
    (∀ t, feed.messages t (.change (.deleted dir)) = .ok [.deleted "a", .deleted "a.css/b/c"]) ∧
    feed.knownBelow (.ofString "/t/.") = .ok feed.known ∧ feed.knownBelow (.ofString "/") = .ok .empty := by
  have covered : ∀ p ∈ sheets, feed.root.isSheet p ∧ feed.root.Covers p := by decide +kernel
  have known (n : String) : n ∈ feed.known ↔ ∃ p ∈ sheets, feed.root.name p = .ok n := by
    have named : sheets.map feed.root.name = ["a", "a.css/b/c", "a.v2/d", "a/e", "ab/f"].map .ok := by decide +kernel
    rw [← List.mem_map, named, List.mem_map_of_injective fun _ _ => Except.ok.inj]
    exact Names.mem_ofList
  obtain ⟨gone, found, said, -, descendants, -, -⟩ := takes_back_descendants dir covered known
  obtain ⟨whole, found', -, -, -, all, -⟩ := takes_back_descendants (.ofString "/t/.") covered known
  obtain ⟨nothing, found'', -, -, -, -, none⟩ := takes_back_descendants (.ofString "/") covered known
  have left : feed.knownBelow dir = .ok (.ofList ["a.css/b/c"]) := by decide +kernel
  obtain rfl := Except.ok.inj (found.symm.trans left)
  have own : feed.root.ownName dir = ["a"] := by decide +kernel
  refine ⟨covered, known, fun n => ?_, fun t => ?_, ?_, ?_⟩
  · rw [← descendants (by decide +kernel), Names.mem_ofList, List.mem_singleton]
  · rw [said, own]
    rfl
  · rw [found', all (by decide +kernel)]
  · rw [found'', none (by decide +kernel)]

end Alike

end Feed
end StyleFeed
