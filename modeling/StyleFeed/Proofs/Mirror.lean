import StyleFeed.Proofs.Changes

/-!
A feed that scans a tree once and then handles every change at once keeps the browser's shelf equal to the
tree, contents included: `Follows.mirrors_tree`. The tree may change by any of the steps of `Touch`.
-/

namespace StyleFeed

open Message (Fits)

/-- An entry takes the place of what is no directory unless it is one, and of a directory only if it is one. -/
def Entry.Replaces (e : Entry) (old : Option Entry) : Prop :=
  ∀ x, old = some x → (x = .directory ↔ e = .directory)

/-- One change at or below the directory at `top`, which the root leads to, and what is reported of it. -/
inductive Touch (root : Root) (top : Route) : Tree → Change → Tree → Prop
  | create {t t' : Tree} {r : Route} {b : Bytes} : t.lookup? (top ++ r) = none →
      t.put? (top ++ r) (.file b) = some t' → Touch root top t (.created (root.path.extend r)) t'
  | overwrite {t t' : Tree} {r : Route} {old b : Bytes} : t.lookup? (top ++ r) = some (.file old) →
      t.put? (top ++ r) (.file b) = some t' → Touch root top t (.modified (root.path.extend r)) t'
  | makeDirectory {t t' : Tree} {r : Route} : t.lookup? (top ++ r) = none →
      t.put? (top ++ r) .directory = some t' → Touch root top t (.created (root.path.extend r)) t'
  /-- A file, or a directory with all in it. -/
  | remove {t : Tree} {r : Route} {e : Entry} : r ≠ [] → t.lookup? (top ++ r) = some e →
      Touch root top t (.deleted (root.path.extend r)) (t.remove (top ++ r))
  | moveOut {t t' : Tree} {r dest : Route} {e : Entry} : r ≠ [] → t.lookup? (top ++ r) = some e →
      ¬ top <+: dest → t.graft? (top ++ r) dest = some t' →
      Touch root top t (.deleted (root.path.extend r)) t'
  | moveIn {t t' : Tree} {src r : Route} {e : Entry} : ¬ top <+: src → t.lookup? src = some e →
      e.Replaces (t.lookup? (top ++ r)) → t.graft? src (top ++ r) = some t' →
      Touch root top t (.created (root.path.extend r)) t'
  | rename {t t' : Tree} {r s : Route} {e : Entry} : t.lookup? (top ++ r) = some e →
      e.Replaces (t.lookup? (top ++ s)) → t.graft? (top ++ r) (top ++ s) = some t' →
      Touch root top t (.moved (root.path.extend r) (root.path.extend s)) t'

/-- No message about a new name is dropped for its size. -/
def Feed.RenamesFit (f : Feed) (t : Tree) (c : Change) : Prop :=
  ∀ ms, f.messages t (.change c) = .ok ms → ∀ old new, .renamed old new ∈ ms →
    Fits f.limit (.renamed old new)

/-- What a feed comes to that scans a tree and then handles each change of it at once, where everything that
it sends is taken; and how its last event ended. -/
inductive Follows (root : Root) (top : Route) (limit : Nat) : Tree → Except Fault Unit × Feed → Prop
  | start {t : Tree} : Watched root top limit t →
      Follows root top limit t ((Feed.start root limit .willing).resync t)
  | next {t t' : Tree} {f : Feed} {c : Change} : Follows root top limit t (.ok (), f) →
      Touch root top t c t' → Watched root top limit t' → f.RenamesFit t' c →
      Follows root top limit t' (f.handle t' (.change c))

section
variable {root : Root} {top : Route} {limit : Nat} {t t' : Tree} {f : Feed}

theorem Mirrored.start : Mirrored root limit (fun _ => none) (Feed.start root limit .willing) where
  root_eq := rfl
  limit_eq := rfl
  willing := ⟨rfl, rfl⟩
  sent := ⟨[], by simp, rfl, .empty⟩

/-- The first scan reports every style sheet. -/
theorem Mirrored.resync (h : Mirrored root limit (fun _ => none) f) (w : Watched root top limit t)
    (known : f.known = .empty) :
    ∃ g, f.resync t = (.ok (), g) ∧ Mirrored root limit (t.cabinet top) g := by
  have here : t.lookup? (top ++ []) = some .directory := by
    rw [List.append_nil]
    exact w.located.2
  have called : f.messages t .rescan = .ok ((t.sheetRoutes root root.path).map fun x =>
      .created x.logicalName ((t.cabinet top x).getD "")) := by
    have fresh := w.createdBelow h.root_eq here
    rw [Feed.createdBelow_eq, show root.path.extend [] = root.path from rfl] at fresh
    obtain ⟨names, -, called, -⟩ := f.messages_rescan t
    rw [called, h.root_eq, Except.ok.inj fresh, known]
    simp [Names.empty]
  have mem {x : Route} : x ∈ t.sheetRoutes root root.path ↔ ∃ c, t.cabinet top x = some c :=
    w.mem_sheetRoutes here
  refine h.report w called (fun x hx => mem.mp hx) fun x hx => ?_
  by_contra stored
  exact hx (mem.mpr (Option.ne_none_iff_exists'.mp stored))

theorem Tree.cabinet_of_none {r : Route} (h : t.lookup? (top ++ r) = none) : t.cabinet top r = none :=
  Tree.cabinet_of_not_file fun _ hb => nomatch h.symm.trans hb

/-- What came into being in a free place is reported. -/
theorem Mirrored.put_free {r : Route} {e : Entry} (h : Mirrored root limit (t.cabinet top) f)
    (w : Watched root top limit t') (free : t.lookup? (top ++ r) = none)
    (put : t.put? (top ++ r) e = some t') :
    ∃ g, f.handle t' (.change (.created (root.path.extend r))) = (.ok (), g) ∧
      Mirrored root limit (t'.cabinet top) g := by
  have lookup := Tree.lookup?_put put
  refine h.created w (by rw [lookup, if_pos rfl]) ?_ ?_
  · intro q below _
    obtain ⟨x, rfl⟩ := below
    apply Tree.cabinet_of_none
    by_cases hx : x = []
    · rw [hx, List.append_nil, free]
    · rw [← List.append_assoc, Tree.lookup?_below_eq_none (by simp [free]) hx]
  · intro q outside
    apply Tree.cabinet_congr
    rw [lookup, if_neg]
    intro same
    exact outside (List.append_cancel_left same ▸ List.prefix_rfl)

/-- What went from below the top to a place outside is not there any more, and all else stands. -/
theorem Tree.lookup?_graft_out {src dest : Route} (h : t.graft? src dest = some t') (outside : ¬ top <+: dest)
    (directory : t.lookup? top = some .directory) (q : Route) :
    t'.lookup? (top ++ q) = if src <+: top ++ q then none else t.lookup? (top ++ q) := by
  obtain ⟨-, -, -, -, bare⟩ := Tree.bare_of_graft h
  rw [Tree.lookup?_graft h]
  have apart : dest.isPrefixOf? (top ++ q) = none := by
    cases hx : dest.isPrefixOf? (top ++ q) with
    | none => rfl
    | some x =>
      have below : dest <+: top ++ q := ⟨x, List.isPrefixOf?_eq_some_iff_append_eq.mp hx⟩
      rcases List.prefix_or_prefix_of_prefix below (List.prefix_append top q) with ⟨y, rfl⟩ | hp
      · by_cases hy : y = []
        · exact absurd (by simp [hy]) outside
        · rw [bare y hy] at directory
          cases directory
      · exact absurd hp outside
  rw [apart]

/-- Whatever is at a route goes away with all below it. -/
theorem Mirrored.taken {r : Route} {e : Entry} (h : Mirrored root limit (t.cabinet top) f)
    (w : Watched root top limit t) (hr : r ≠ []) (old : t.lookup? (top ++ r) = some e)
    (lookup : ∀ q, t'.lookup? (top ++ q) = if top ++ r <+: top ++ q then none else t.lookup? (top ++ q)) :
    ∃ g, f.handle t' (.change (.deleted (root.path.extend r))) = (.ok (), g) ∧
      Mirrored root limit (t'.cabinet top) g := by
  refine h.deleted w hr (w.plain r e old) ?_ ?_
  · intro q below
    apply Tree.cabinet_of_none
    rw [lookup, if_pos ((List.prefix_append_right_inj top).mpr below)]
  · intro q outside
    apply Tree.cabinet_congr
    rw [lookup, if_neg fun below => outside ((List.prefix_append_right_inj top).mp below)]

theorem Mirrored.movedIn {src r : Route} {e : Entry} (h : Mirrored root limit (t.cabinet top) f)
    (w' : Watched root top limit t') (outside : ¬ top <+: src)
    (there : t.lookup? src = some e) (replaces : e.Replaces (t.lookup? (top ++ r)))
    (graft : t.graft? src (top ++ r) = some t') :
    ∃ g, f.handle t' (.change (.created (root.path.extend r))) = (.ok (), g) ∧
      Mirrored root limit (t'.cabinet top) g := by
  obtain ⟨-, -, apart, -, bare⟩ := Tree.bare_of_graft graft
  have lookup := Tree.lookup?_graft graft
  have here : t'.lookup? (top ++ r) = some e := by
    rw [lookup, List.isPrefixOf?_eq_some_iff_append_eq.mpr (List.append_nil (top ++ r))]
    simp only [List.append_nil, there]
  refine h.created w' here ?_ ?_
  · intro q below none
    obtain ⟨x, rfl⟩ := below
    by_cases hx : x = []
    · -- a style sheet that is replaced is replaced by a style sheet
      rw [hx, List.append_nil] at none ⊢
      by_contra stored
      obtain ⟨c, hc⟩ := Option.ne_none_iff_exists'.mp stored
      obtain ⟨sheet, b, hb, -⟩ := Tree.cabinet_eq_some hc
      cases e with
      | file b' =>
        obtain ⟨d, hd⟩ := w'.cabinet_file sheet here
        rw [hd] at none
        cases none
      | directory => exact nomatch (replaces _ hb).mpr rfl
      | link target => exact w'.linkless r target here
    · apply Tree.cabinet_of_none
      rw [← List.append_assoc, bare x hx]
  · intro q away
    apply Tree.cabinet_congr
    have notBelow : (top ++ r).isPrefixOf? (top ++ q) = none := by
      cases hx : (top ++ r).isPrefixOf? (top ++ q) with
      | none => rfl
      | some x =>
        have below : top ++ r <+: top ++ q := ⟨x, List.isPrefixOf?_eq_some_iff_append_eq.mp hx⟩
        exact absurd ((List.prefix_append_right_inj top).mp below) away
    have notFrom : ¬ src <+: top ++ q := by
      intro below
      rcases List.prefix_or_prefix_of_prefix below (List.prefix_append top q) with hp | hp
      · exact apart (hp.trans (List.prefix_append top r))
      · exact outside hp
    rw [lookup, notBelow]
    exact if_neg notFrom

theorem Mirrored.renamed {r s : Route} {e : Entry} (h : Mirrored root limit (t.cabinet top) f)
    (w : Watched root top limit t) (w' : Watched root top limit t')
    (old : t.lookup? (top ++ r) = some e) (replaces : e.Replaces (t.lookup? (top ++ s)))
    (graft : t.graft? (top ++ r) (top ++ s) = some t')
    (fits : f.RenamesFit t' (.moved (root.path.extend r) (root.path.extend s))) :
    ∃ g, f.handle t' (.change (.moved (root.path.extend r) (root.path.extend s))) = (.ok (), g) ∧
      Mirrored root limit (t'.cabinet top) g := by
  obtain ⟨-, -, apart, -, bare⟩ := Tree.bare_of_graft graft
  rw [List.prefix_append_right_inj] at apart
  -- neither place lies in the other
  have apart' : ¬ s <+: r := by
    rintro ⟨x, rfl⟩
    by_cases hx : x = []
    · exact apart (by simp [hx])
    · rw [← List.append_assoc, bare x hx] at old
      cases old
  have lookupNew (x : Route) : t'.lookup? (top ++ (s ++ x)) = t.lookup? (top ++ (r ++ x)) := by
    rw [Tree.lookup?_graft graft, List.isPrefixOf?_eq_some_iff_append_eq.mpr (List.append_assoc top s x)]
    simp only [List.append_assoc]
  have lookup {q : Route} (hq : ¬ s <+: q) :
      t'.lookup? (top ++ q) = if r <+: q then none else t.lookup? (top ++ q) := by
    have notBelow : (top ++ s).isPrefixOf? (top ++ q) = none := by
      cases hx : (top ++ s).isPrefixOf? (top ++ q) with
      | none => rfl
      | some x =>
        have below : top ++ s <+: top ++ q := ⟨x, List.isPrefixOf?_eq_some_iff_append_eq.mp hx⟩
        exact absurd ((List.prefix_append_right_inj top).mp below) hq
    rw [Tree.lookup?_graft graft, notBelow]
    simp only [List.prefix_append_right_inj]
  have new : t'.lookup? (top ++ s) = some e := by
    have := lookupNew []
    rwa [List.append_nil, List.append_nil, old] at this
  have noPrefix {x y : Route} : r ++ x ≠ s ++ y := by
    intro same
    rcases List.prefix_or_prefix_of_prefix (List.prefix_append r x) (same ▸ List.prefix_append s y) with hp | hp
    · exact apart hp
    · exact apart' hp
  have goneLookup (x : Route) : t'.lookup? (top ++ (r ++ x)) = none := by
    rw [lookup, if_pos (List.prefix_append r x)]
    rintro ⟨y, hy⟩
    exact noPrefix hy.symm
  rw [Feed.RenamesFit, h.limit_eq] at fits
  cases e with
  | link target => exact absurd old (w.linkless r target)
  | file b =>
    refine h.movedFile w w' ?_ old new ?_ ?_ fits
    · rintro rfl
      exact apart List.prefix_rfl
    · exact Tree.cabinet_of_none (by simpa using goneLookup [])
    · intro q hr hs
      have nothing {x : Route} (hx : x ≠ []) : t.lookup? (top ++ (r ++ x)) = none := by
        rw [← List.append_assoc]
        exact Tree.lookup?_below_eq_none (by simp [old]) hx
      apply Tree.cabinet_congr
      by_cases hqs : s <+: q
      · obtain ⟨x, rfl⟩ := hqs
        have hx : x ≠ [] := by simpa using hs
        rw [lookupNew, nothing hx, ← List.append_assoc, bare x hx]
      · rw [lookup hqs]
        split
        · rename_i below
          obtain ⟨x, rfl⟩ := below
          rw [nothing (by simpa using hr)]
        · rfl
  | directory =>
    have free (x : Route) : t.cabinet top (s ++ x) = none := by
      by_cases hx : x = []
      · apply Tree.cabinet_of_not_file
        intro b hb
        rw [hx, List.append_nil] at hb
        exact nomatch (replaces _ hb).mpr rfl
      · apply Tree.cabinet_of_none
        rw [← List.append_assoc, bare x hx]
    have gone (x : Route) : t'.cabinet top (r ++ x) = none := Tree.cabinet_of_none (goneLookup x)
    have elsewhere (q : Route) (hr : ¬ r <+: q) (hs : ¬ s <+: q) : t'.cabinet top q = t.cabinet top q := by
      apply Tree.cabinet_congr
      rw [lookup hs, if_neg hr]
    refine h.movedDirectory w w' ?_ ⟨old, new, fun _ _ => noPrefix, lookupNew, gone, free, elsewhere⟩ fits
    rintro rfl
    exact apart List.nil_prefix

theorem Mirrored.touch {c : Change} (h : Mirrored root limit (t.cabinet top) f) (w : Watched root top limit t)
    (w' : Watched root top limit t') (touch : Touch root top t c t') (fits : f.RenamesFit t' c) :
    ∃ g, f.handle t' (.change c) = (.ok (), g) ∧ Mirrored root limit (t'.cabinet top) g := by
  cases touch with
  | create free put => exact h.put_free w' free put
  | makeDirectory free put => exact h.put_free w' free put
  | @overwrite _ r old b file put =>
    have lookup := Tree.lookup?_put put
    have here : t'.lookup? (top ++ r) = some (.file b) := by rw [lookup, if_pos rfl]
    refine h.modified w' here ?_ ?_
    · intro none
      by_cases sheet : r.IsSheet
      · obtain ⟨c, hc⟩ := w'.cabinet_file sheet here
        rw [hc] at none
        cases none
      · exact Tree.cabinet_of_not_sheet sheet
    · intro q hq
      apply Tree.cabinet_congr
      rw [lookup, if_neg fun same => hq (List.append_cancel_left same)]
  | remove hr old => exact h.taken w hr old fun q => Tree.lookup?_remove (by simp [hr]) _
  | moveOut hr old outside graft =>
    exact h.taken w hr old (Tree.lookup?_graft_out graft outside w.located.2)
  | moveIn outside there replaces graft => exact h.movedIn w' outside there replaces graft
  | rename old replaces graft => exact h.renamed w w' old replaces graft fits

theorem Follows.mirrored {reached : Except Fault Unit × Feed} (h : Follows root top limit t reached) :
    reached.1 = .ok () ∧ Watched root top limit t ∧ Mirrored root limit (t.cabinet top) reached.2 := by
  induction h with
  | start w =>
    obtain ⟨g, scanned, mirrored⟩ := Mirrored.start.resync w rfl
    rw [scanned]
    exact ⟨rfl, w, mirrored⟩
  | next _ touch w' fits ih =>
    obtain ⟨-, w, before⟩ := ih
    obtain ⟨g, handled, mirrored⟩ := before.touch w w' touch fits
    rw [handled]
    exact ⟨rfl, w', mirrored⟩

end

/-- There is a style sheet of this name and content below the root. -/
def Root.HasStyle (root : Root) (top : Route) (t : Tree) (name content : String) : Prop :=
  ∃ r b, root.isSheet (root.path.extend r) ∧ root.name (root.path.extend r) = .ok name ∧
    t.lookup? (top ++ r) = some (.file b) ∧ Utf8.decode? b = some content

/-- After every change nothing has failed, what went out is the frames of some messages, and these leave
the browser with the names and contents of the style sheets that are there, which are the names that the
feed knows. -/
theorem Follows.mirrors_tree {root : Root} {top : Route} {limit : Nat} {t : Tree}
    {reached : Except Fault Unit × Feed} (h : Follows root top limit t reached) :
    reached.1 = .ok () ∧ ∃ ms : List Message,
      reached.2.outlet.accepted = ms.flatMap Message.frame ∧
      (Frame.readAll [.data reached.2.outlet.accepted]).2 = none ∧
      (Frame.readAll [.data reached.2.outlet.accepted]).1.map Message.parse = ms.map .ok ∧
      (∀ name content, (Shelf.empty.receiveAll ms).content? name = some content ↔
        root.HasStyle top t name content) ∧
      ∀ name, name ∈ reached.2.known ↔ ∃ content, root.HasStyle top t name content := by
  obtain ⟨ok, w, mirrored⟩ := h.mirrored
  obtain ⟨ms, fits, accepted, account⟩ := mirrored.sent
  have style (name content : String) : (Shelf.empty.receiveAll ms).content? name = some content ↔
      root.HasStyle top t name content := by
    rw [account.content]
    constructor
    · rintro ⟨r, hr, rfl⟩
      obtain ⟨sheet, b, hb, decoded⟩ := Tree.cabinet_eq_some hr
      exact ⟨r, b, (w.isSheet_iff r).mpr sheet, w.name r, hb, decoded⟩
    · rintro ⟨r, b, sheet, named, hb, decoded⟩
      rw [w.name] at named
      refine ⟨r, ?_, Except.ok.inj named⟩
      rw [Tree.cabinet_of_file ((w.isSheet_iff r).mp sheet) hb, decoded]
  refine ⟨ok, ms, accepted, ?_, ?_, style, ?_⟩
  · rw [accepted, Message.readAll_frames fits]
  · rw [accepted, Message.readAll_frames fits]
    simp [Function.comp_def]
  · intro name
    rw [account.known]
    exact exists_congr fun content => style name content

/-! ## A rename of an empty style sheet -/

namespace OneSheet

def root : Root := ⟨.ofString "/w"⟩

def top : Route := [⟨[0x77], by decide⟩]

/-- `a.css` -/
def a : FileName := ⟨[0x61, 0x2e, 0x63, 0x73, 0x73], by decide⟩

/-- `b.css` -/
def b : FileName := ⟨[0x62, 0x2e, 0x63, 0x73, 0x73], by decide⟩

/-- The style sheet is the only one, and it is empty. -/
def holding (n : FileName) : Tree where
  entries := [(top, .directory), (top ++ [n], .file [])]
  workplace := []
  distinct := by simp
  rooted := by simp [top]

theorem touch : Touch root top (holding a) (.moved (root.path.extend [a]) (root.path.extend [b])) (holding b) := by
  apply Touch.rename (e := .file [])
  · decide
  · intro x hx
    exact nomatch hx
  · rfl

/-- The feed after the rename. -/
def renamed (limit : Nat) : Except Fault Unit × Feed :=
  ((Feed.start root limit .willing).resync (holding a)).2.handle (holding b)
    (.change (.moved (root.path.extend [a]) (root.path.extend [b])))

theorem mirrors_renamed : Follows root top 64 (holding b) (renamed 64) ∧
    (renamed 64).1 = .ok () ∧ ∃ ms : List Message,
      (renamed 64).2.outlet.accepted = ms.flatMap Message.frame ∧
      (Frame.readAll [.data (renamed 64).2.outlet.accepted]).2 = none ∧
      (Frame.readAll [.data (renamed 64).2.outlet.accepted]).1.map Message.parse = ms.map .ok ∧
      (∀ name content, (Shelf.empty.receiveAll ms).content? name = some content ↔
        root.HasStyle top (holding b) name content) ∧
      ∀ name, name ∈ (renamed 64).2.known ↔ ∃ content, root.HasStyle top (holding b) name content := by
  let f := ((Feed.start root 64 .willing).resync (holding a)).2
  have scanned : (Feed.start root 64 .willing).resync (holding a) = (.ok (), f) :=
    Prod.ext (by decide +kernel) rfl
  have first : Follows root top 64 (holding a) (.ok (), f) := by
    rw [← scanned]
    exact .start (by decide +kernel)
  have called : f.messages (holding b) (.change (.moved (root.path.extend [a]) (root.path.extend [b]))) =
      .ok [.renamed "a" "b"] := by decide +kernel
  have fits : f.RenamesFit (holding b) (.moved (root.path.extend [a]) (root.path.extend [b])) := by
    intro ms hms old new hm
    rw [called] at hms
    cases hms
    rw [List.mem_singleton.mp hm]
    decide +kernel
  have second : Follows root top 64 (holding b) (renamed 64) := first.next touch (by decide +kernel) fits
  exact ⟨second, Follows.mirrors_tree second⟩

/-- A limit that the style sheet fits may be too small for the message about its new name. Then the browser
is left with the old one. -/
theorem not_mirrored_over_limit : Watched root top 40 (holding a) ∧
    Touch root top (holding a) (.moved (root.path.extend [a]) (root.path.extend [b])) (holding b) ∧
    Watched root top 40 (holding b) ∧
    ¬ ∃ ms : List Message,
      (Frame.readAll [.data (renamed 40).2.outlet.accepted]).1.map Message.parse = ms.map .ok ∧
      ∀ name content, (Shelf.empty.receiveAll ms).content? name = some content ↔
        root.HasStyle top (holding b) name content := by
  refine ⟨by decide +kernel, touch, by decide +kernel, ?_⟩
  rintro ⟨ms, read, style⟩
  have accepted : (renamed 40).2.outlet.accepted = [Message.created "a" ""].flatMap Message.frame := by
    decide +kernel
  have fits : ∀ m ∈ [Message.created "a" ""], Fits 40 m := by decide +kernel
  have sent : ms = [.created "a" ""] := by
    rw [accepted, Message.readAll_frames fits] at read
    simpa using read.symm
  have there : root.HasStyle top (holding b) "b" "" :=
    ⟨[b], [], by decide +kernel, by decide +kernel, by decide, by decide +kernel⟩
  have := (style "b" "").mpr there
  rw [sent] at this
  simp [Shelf.receiveAll, Shelf.receive, Shelf.put, Shelf.empty] at this

end OneSheet

end StyleFeed
