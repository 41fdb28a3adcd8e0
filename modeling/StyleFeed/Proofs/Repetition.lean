import StyleFeed.Proofs.Answers
import StyleFeed.Proofs.Places

/-!
To be told of a change twice does no harm: the second time it is answered as the first time, but for the names that are
remembered by then, and that leaves the names as they are (`Feed.same_names_when_repeated`).
-/

namespace StyleFeed

open Message (Fits)

/-- The change is no move, or one to where it came from, or neither of the two places lies in the other. -/
def Change.Untangled : Change → Prop
  | .moved src dest => src.same dest ∨ src.Apart dest
  | _ => True

instance : DecidablePred Change.Untangled
  | .moved src dest => inferInstanceAs (Decidable (src.same dest ∨ src.Apart dest))
  | .created _ | .deleted _ | .modified _ => .isTrue trivial

namespace Feed

variable {f : Feed} {t : Tree} {c : Change} {said : List Message} {lost : String → Bool}

/-- No name that comes in is lost by the same change. -/
theorem Answer.not_lost (answer : f.Answer t c said lost) (covered : ∀ p ∈ c.paths, f.root.Covers p)
    (untangled : c.Untangled) {m : Message} (hm : m ∈ said) (arrives : m.kind ≠ .deleted) : ¬ lost m.name := by
  intro isLost
  obtain ⟨src, dest, rfl, other, holds, x, below, sheet, named⟩ := answer.entangled m hm arrives isLost
  have covers : f.root.Covers src := covered src Change.src_mem_paths
  have covers' : f.root.Covers dest := covered dest Change.dest_mem_paths
  have apart : src.Apart dest := untangled.resolve_left other
  exact covers.not_holds_of_apart covers' apart holds (covers'.holds_name below sheet named)

/-- A change that is told a second time on the same tree leaves the names as they are, whatever was remembered and
whatever was too large to be sent or could not be read. -/
theorem same_names_when_repeated (faultless : f.outlet.Faultless) (covered : ∀ p ∈ c.paths, f.root.Covers p)
    (untangled : c.Untangled) : ∃ g k, f.handle t (.change c) = (.ok (), g) ∧
      g.handle t (.change c) = (.ok (), k) ∧ k.known = g.known := by
  obtain ⟨said, lost, answer⟩ := f.exists_answer t c
  obtain ⟨g, handled, root, limit, faultless', known⟩ := answer.handled rfl faultless
  obtain ⟨k, again, -, -, -, known'⟩ := answer.handled root faultless'
  refine ⟨g, k, handled, again, Names.ext fun n => ?_⟩
  rw [limit] at known'
  rcases Names.settled (said.filter (Fits f.limit ·)) n with left | ⟨m, hm, arrives, rfl, brought⟩ | gone
  · -- only the deletion of what is lost can concern the name, and one that fits was sent the first time
    rw [known', known, left, left, known, left]
    tauto
  · have kept : ¬ lost m.name := answer.not_lost covered untangled (List.mem_of_mem_filter hm) arrives
    simp [known', known, brought, kept]
  · simp [known', known, gone]

/-! A directory has moved, and the message about the style sheet in it is too large to be sent. -/
namespace DirectoryMove

def narrow : Feed := { feed with limit := 30 }

theorem same_names_again : narrow.outlet.Faultless ∧ (Change.moved src dest).Untangled ∧
    ∃ g k, narrow.handle tree (.change (.moved src dest)) = (.ok (), g) ∧
      g.handle tree (.change (.moved src dest)) = (.ok (), k) ∧ k.known = g.known ∧ g.known.toList = ["d/c", "f"] := by
  have faultless : narrow.outlet.Faultless := Outlet.Willing.faultless ⟨rfl, rfl⟩
  have untangled : (Change.moved src dest).Untangled := .inr (by decide +kernel)
  have covered : ∀ p ∈ (Change.moved src dest).paths, narrow.root.Covers p := by decide +kernel
  obtain ⟨g, k, first, again, same⟩ := same_names_when_repeated (t := tree) faultless covered untangled
  have left : (narrow.handle tree (.change (.moved src dest))).2.known.toList = ["d/c", "f"] := by decide +kernel
  rw [first] at left
  exact ⟨faultless, untangled, g, k, first, again, same, left⟩

end DirectoryMove

end Feed
end StyleFeed
