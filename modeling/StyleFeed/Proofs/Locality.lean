import StyleFeed.Proofs.Answers
import StyleFeed.Proofs.Relocation

/-!
A change speaks only of names whose places are at or below its paths, and asks only for remembered names below them
(`Feed.changes_are_local`). So changes whose paths lie apart may be handled in any order (`Feed.mem_known_run`).
-/

namespace StyleFeed

/-- The place of the name is at or below a path of the change. -/
def Change.Reaches (c : Change) (root : Root) (n : String) : Prop := ∃ p ∈ c.paths, (root.home n).Within p

/-- No path of one change is at or below one of the other. -/
def Change.Apart (c c' : Change) : Prop := ∀ p ∈ c.paths, ∀ q ∈ c'.paths, p.Apart q

instance (c c' : Change) : Decidable (c.Apart c') :=
  inferInstanceAs (Decidable (∀ p ∈ c.paths, ∀ q ∈ c'.paths, p.Apart q))

theorem Change.Apart.symm {c c' : Change} (h : c.Apart c') : c'.Apart c := fun q hq p hp => (h p hp q hq).symm

theorem Change.not_reaches_of_apart {c c' : Change} {root : Root} {n : String} (apart : c.Apart c')
    (h : c.Reaches root n) : ¬ c'.Reaches root n := by
  obtain ⟨p, hp, within⟩ := h
  rintro ⟨q, hq, within'⟩
  exact Path.not_within_of_apart (apart p hp q hq) within within'

namespace Feed

variable {f g f' g' : Feed} {t : Tree} {c c' : Change} {said : List Message} {lost : String → Bool} {n : String}

namespace Answer

variable (answer : f.Answer t c said lost) (covered : ∀ p ∈ c.paths, f.root.Covers p)
include answer covered

theorem reaches_of_mentions {m : Message} (hm : m ∈ said) (mentioned : m.Mentions n) : c.Reaches f.root n := by
  obtain ⟨q, ⟨p, hp, x, rfl⟩, sheet, named⟩ := answer.about m hm n mentioned
  exact ⟨p, hp, (covered p hp).within_home sheet named⟩

/-- What is lost of the names of style sheets is below a path of the change. -/
theorem inside_of_lost (isName : f.root.IsName n) (isLost : lost n) : ∃ p ∈ c.paths, (f.root.home n).Inside p := by
  obtain ⟨p, hp, holds⟩ := answer.below n isLost
  exact ⟨p, hp, ((covered p hp).inside_home_iff isName).mpr holds⟩

/-- The answer depends on no names but those below the paths of the change. -/
theorem messages_eq (same : g.root = f.root) (decent : f.Decent) (decent' : g.Decent)
    (agree : ∀ n, (∃ p ∈ c.paths, (f.root.home n).Inside p) → (n ∈ g.known ↔ n ∈ f.known)) :
    g.messages t (.change c) = f.messages t (.change c) := by
  have gone : g.known.filter lost = f.known.filter lost := by
    apply Names.ext
    intro n
    rw [Names.mem_filter, Names.mem_filter]
    apply and_congr_left
    intro isLost
    constructor
    · intro known
      have isName : f.root.IsName n := same ▸ decent' n known
      exact (agree n (answer.inside_of_lost covered isName isLost)).mp known
    · intro known
      exact (agree n (answer.inside_of_lost covered (decent n known) isLost)).mpr known
  rw [answer.called g same, answer.called f rfl, gone]

end Answer

theorem Decent.handle (decent : f.Decent) {e : Event} (handled : f.handle t e = (.ok (), g)) : g.Decent := by
  have kept := (decent.run [(t, e)]).2.1
  rw [Feed.run, handled] at kept
  exact kept

/-- What becomes of a name depends on whether it was remembered, and on no other name. -/
theorem mem_known_congr (root : g.root = f.root) (limit : g.limit = f.limit) (faultless : f.outlet.Faultless)
    (faultless' : g.outlet.Faultless) (handled : f.handle t (.change c) = (.ok (), f'))
    (handled' : g.handle t (.change c) = (.ok (), g')) (same : n ∈ g.known ↔ n ∈ f.known) :
    n ∈ g'.known ↔ n ∈ f'.known := by
  obtain ⟨said, lost, answer⟩ := f.exists_answer t c
  obtain ⟨x, first, -, -, -, known⟩ := answer.handled rfl faultless
  obtain ⟨y, second, -, -, -, known'⟩ := answer.handled root faultless'
  obtain rfl : f' = x := congrArg Prod.snd (handled.symm.trans first)
  obtain rfl : g' = y := congrArg Prod.snd (handled'.symm.trans second)
  rw [known, known', limit, Names.mem_foldl_congr same, same]

/-- A change leaves the names as they are whose places are not at or below its paths. -/
theorem handle_local (faultless : f.outlet.Faultless) (decent : f.Decent) (covered : ∀ p ∈ c.paths, f.root.Covers p) :
    ∃ g, f.handle t (.change c) = (.ok (), g) ∧ g.root = f.root ∧ g.limit = f.limit ∧ g.outlet.Faultless ∧
      ∀ n, ¬ c.Reaches f.root n → (n ∈ g.known ↔ n ∈ f.known) := by
  obtain ⟨said, lost, answer⟩ := f.exists_answer t c
  obtain ⟨g, handled, root, limit, faultless', known⟩ := answer.handled rfl faultless
  refine ⟨g, handled, root, limit, faultless', ?_⟩
  intro n out
  have unmentioned : ∀ m ∈ said.filter (Message.Fits f.limit ·), ¬ m.Mentions n := fun m hm mentioned =>
    out (answer.reaches_of_mentions covered (List.mem_of_mem_filter hm) mentioned)
  rw [known, Names.mem_foldl_of_not_mentions unmentioned, and_iff_left_iff_imp]
  rintro isKnown ⟨-, isLost, -⟩
  obtain ⟨p, hp, inside⟩ := answer.inside_of_lost covered (decent n isKnown) isLost
  exact out ⟨p, hp, inside.within⟩

/-- Changes that lie apart on one tree do to each name what the one of them does that reaches it, if there is one. -/
theorem mem_known_run {cs : List Change} (faultless : f.outlet.Faultless) (decent : f.Decent)
    (covered : ∀ c ∈ cs, ∀ p ∈ c.paths, f.root.Covers p) (apart : cs.Pairwise Change.Apart) :
    ∃ g, f.run (cs.map fun c => (t, .change c)) = (.ok (), g) ∧ ∀ n,
      (∀ c ∈ cs, c.Reaches f.root n → (n ∈ g.known ↔ n ∈ (f.handle t (.change c)).2.known)) ∧
      ((∀ c ∈ cs, ¬ c.Reaches f.root n) → (n ∈ g.known ↔ n ∈ f.known)) := by
  induction cs generalizing f with
  | nil => exact ⟨f, rfl, fun n => ⟨List.forall_mem_nil _, fun _ => Iff.rfl⟩⟩
  | cons c cs ih =>
    obtain ⟨first, rest⟩ := List.forall_mem_cons.mp covered
    obtain ⟨apartFirst, apartRest⟩ := List.pairwise_cons.mp apart
    obtain ⟨h, handled, root, limit, faultless', kept⟩ := handle_local (t := t) faultless decent first
    obtain ⟨g, ran, known⟩ := ih faultless' (decent.handle handled) (root.symm ▸ rest) apartRest
    rw [root] at known
    refine ⟨g, ?_, fun n => ⟨List.forall_mem_cons.mpr ⟨?_, ?_⟩, ?_⟩⟩
    · simp only [List.map_cons, run, handled, ran]
    · intro reached
      rw [handled, (known n).2 fun x hx => Change.not_reaches_of_apart (apartFirst x hx) reached]
    · -- the first change passes the name by, so the later one finds it as it was
      intro x hx reached
      have passed : ¬ c.Reaches f.root n := fun both => Change.not_reaches_of_apart (apartFirst x hx) both reached
      obtain ⟨y, alone, -⟩ := handle_local (t := t) faultless decent (rest x hx)
      obtain ⟨z, later, -⟩ := handle_local (t := t) faultless' (decent.handle handled) (root.symm ▸ rest x hx)
      rw [(known n).1 x hx reached, alone, later]
      exact mem_known_congr root limit faultless faultless' alone later (kept n passed)
    · intro none
      obtain ⟨notFirst, notRest⟩ := List.forall_mem_cons.mp none
      rw [(known n).2 notRest, kept n notFirst]

/-- Changes that lie apart leave the same names in any order. -/
theorem same_names_in_any_order {cs cs' : List Change} (faultless : f.outlet.Faultless) (decent : f.Decent)
    (covered : ∀ c ∈ cs, ∀ p ∈ c.paths, f.root.Covers p) (apart : cs.Pairwise Change.Apart) (perm : cs.Perm cs') :
    ∃ g k, f.run (cs.map fun c => (t, .change c)) = (.ok (), g) ∧
      f.run (cs'.map fun c => (t, .change c)) = (.ok (), k) ∧ g.known = k.known := by
  have covered' : ∀ c ∈ cs', ∀ p ∈ c.paths, f.root.Covers p := fun c hc => covered c (perm.mem_iff.mpr hc)
  have apart' : cs'.Pairwise Change.Apart := perm.pairwise apart Change.Apart.symm
  obtain ⟨g, ran, known⟩ := mem_known_run (t := t) faultless decent covered apart
  obtain ⟨k, ran', known'⟩ := mem_known_run (t := t) faultless decent covered' apart'
  refine ⟨g, k, ran, ran', Names.ext fun n => ?_⟩
  by_cases reached : ∃ c ∈ cs, c.Reaches f.root n
  · obtain ⟨c, hc, reached⟩ := reached
    rw [(known n).1 c hc reached, (known' n).1 c (perm.mem_iff.mp hc) reached]
  · have none : ∀ c ∈ cs, ¬ c.Reaches f.root n := fun c hc one => reached ⟨c, hc, one⟩
    rw [(known n).2 none, (known' n).2 fun c hc => none c (perm.mem_iff.mpr hc)]

/-- Handling is local. The names are left as they are whose places are not at or below a path of the change; what is
said does not depend on remembered names other than those below; and changes whose paths lie apart leave the same names
in any order. -/
theorem changes_are_local (faultless : f.outlet.Faultless) (decent : f.Decent) (t : Tree) :
    (∀ c : Change, (∀ p ∈ c.paths, f.root.Covers p) →
      (∃ g, f.handle t (.change c) = (.ok (), g) ∧
        ∀ n, (∀ p ∈ c.paths, ¬ (f.root.home n).Within p) → (n ∈ g.known ↔ n ∈ f.known)) ∧
      ∃ ms, f.messages t (.change c) = .ok ms ∧ ∀ g : Feed, g.root = f.root → g.Decent →
        (∀ n, (∃ p ∈ c.paths, (f.root.home n).Inside p) → (n ∈ g.known ↔ n ∈ f.known)) →
        g.messages t (.change c) = .ok ms) ∧
    ∀ cs cs' : List Change, (∀ c ∈ cs, ∀ p ∈ c.paths, f.root.Covers p) → cs.Pairwise Change.Apart → cs.Perm cs' →
      ∃ g k, f.run (cs.map fun c => (t, .change c)) = (.ok (), g) ∧
        f.run (cs'.map fun c => (t, .change c)) = (.ok (), k) ∧ g.known = k.known := by
  constructor
  · intro c covered
    constructor
    · obtain ⟨g, handled, -, -, -, kept⟩ := handle_local (t := t) faultless decent covered
      refine ⟨g, handled, fun n out => kept n ?_⟩
      rintro ⟨p, hp, within⟩
      exact out p hp within
    · obtain ⟨said, lost, answer⟩ := f.exists_answer t c
      refine ⟨_, answer.called f rfl, fun g same decent' agree => ?_⟩
      rw [answer.messages_eq covered same decent decent' agree]
      exact answer.called f rfl
  · intro cs cs' covered apart perm
    exact same_names_in_any_order faultless decent covered apart perm

/-! Beside the directory that has moved, a style sheet has gone. -/
namespace DirectoryMove

def sheet : Path := .ofString "/t/f.css"

theorem either_order : feed.outlet.Faultless ∧ feed.Decent ∧
    (∃ g, feed.handle tree (.change (.moved src dest)) = (.ok (), g) ∧ ("f" ∈ g.known ↔ "f" ∈ feed.known)) ∧
    ∃ g k, feed.run [(tree, .change (.moved src dest)), (tree, .change (.deleted sheet))] = (.ok (), g) ∧
      feed.run [(tree, .change (.deleted sheet)), (tree, .change (.moved src dest))] = (.ok (), k) ∧
      g.known = k.known ∧ g.known.toList = ["e/c"] := by
  have faultless : feed.outlet.Faultless := Outlet.Willing.faultless ⟨rfl, rfl⟩
  have ⟨one, order⟩ := changes_are_local faultless decent tree
  obtain ⟨⟨h, handled, kept⟩, -⟩ := one (.moved src dest) (by decide +kernel)
  obtain ⟨g, k, first, second, same⟩ :=
    order [.moved src dest, .deleted sheet] [.deleted sheet, .moved src dest] (by decide +kernel) (by decide +kernel)
      (.swap ..)
  have left : (feed.run [(tree, .change (.moved src dest)), (tree, .change (.deleted sheet))]).2.known.toList =
      ["e/c"] := by decide +kernel
  simp only [List.map_cons, List.map_nil] at first second
  rw [first] at left
  exact ⟨faultless, decent, ⟨h, handled, kept "f" (by decide +kernel)⟩, g, k, first, second, same, left⟩

end DirectoryMove

end Feed
end StyleFeed
