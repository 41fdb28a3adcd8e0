import StyleFeed.Proofs.Moves
import StyleFeed.Proofs.Watched

/-!
A feed that handles every change of a tree at once keeps the browser's shelf equal to the tree.
-/

namespace StyleFeed

open Message (Fits)

/-- What went out so far leaves the browser with what is in the cabinet, and the feed knows the names. -/
structure Mirrored (root : Root) (limit : Nat) (C : Cabinet) (f : Feed) : Prop where
  root_eq : f.root = root
  limit_eq : f.limit = limit
  willing : f.outlet.Willing
  sent : ∃ ms, (∀ m ∈ ms, Fits limit m) ∧ f.outlet.accepted = ms.flatMap Message.frame ∧
    Account C (Shelf.empty.receiveAll ms) f.known

section
variable {root : Root} {top : Route} {limit : Nat} {C C' : Cabinet} {t t' : Tree} {f : Feed} {r s : Route}
  {e : Entry}

theorem Account.after_append {s : Shelf} {k : Names} {ms ns : List Message} (first : After C s k ms)
    (second : ∀ s k, Account C s k → After C' s k ns) : After C' s k (ms ++ ns) := by
  have := second _ _ first
  unfold After Shelf.receiveAll at this ⊢
  rwa [List.foldl_append, List.foldl_append]

namespace Mirrored

theorem handle (h : Mirrored root limit C f) {event : Event} {ms : List Message}
    (called : f.messages t event = .ok ms)
    (next : ∀ s, Account C s f.known → Account.After C' s f.known (ms.filter (Fits limit ·))) :
    ∃ g, f.handle t event = (.ok (), g) ∧ Mirrored root limit C' g := by
  obtain ⟨g, sent, all, willing⟩ := Feed.send_of_willing h.willing ms
  obtain ⟨before, fits, accepted, account⟩ := h.sent
  rw [h.limit_eq] at all
  have handled : f.handle t event = (.ok (), g) := by
    rw [Feed.handle, called]
    exact sent
  refine ⟨g, handled, all.root.trans h.root_eq, all.limit.trans h.limit_eq,
    willing, before ++ ms.filter (Fits limit ·), ?_, ?_, ?_⟩
  · intro m hm
    rcases List.mem_append.mp hm with hm | hm
    · exact fits m hm
    · simpa using (List.mem_filter.mp hm).2
  · rw [all.accepted, accepted, List.flatMap_append]
  · have after := next _ account
    unfold Account.After Shelf.receiveAll at after
    rw [all.known, Shelf.receiveAll, List.foldl_append]
    exact after

/-- The same where all the messages fit. -/
theorem handle_fitting (h : Mirrored root limit C f) {event : Event} {ms : List Message}
    (called : f.messages t event = .ok ms) (fits : ∀ m ∈ ms, Fits limit m)
    (next : ∀ s, Account C s f.known → Account.After C' s f.known ms) :
    ∃ g, f.handle t event = (.ok (), g) ∧ Mirrored root limit C' g := by
  refine h.handle called ?_
  rw [List.filter_eq_self.mpr fun m hm => decide_eq_true (fits m hm)]
  exact next

end Mirrored

/-! ## Something came into being -/

theorem Watched.messages_created (w : Watched root top limit t) (hf : f.root = root)
    (here : t.lookup? (top ++ r) = some e) :
    ∃ routes : List Route, f.messages t (.change (.created (root.path.extend r))) =
        .ok (routes.map fun q => .created q.logicalName ((t.cabinet top q).getD "")) ∧
      ∀ q, q ∈ routes ↔ r <+: q ∧ ∃ c, t.cabinet top q = some c := by
  unfold Feed.messages Feed.messagesAbout
  cases e with
  | directory =>
    refine ⟨(t.sheetRoutes root (root.path.extend r)).map (r ++ ·), ?_, ?_⟩
    · simp only [(w.isDirectory_iff here).mpr rfl, if_true, w.createdBelow hf here, List.map_map]
      rfl
    · intro q
      rw [List.mem_map]
      constructor
      · rintro ⟨x, hx, rfl⟩
        exact ⟨List.prefix_append r x, (w.mem_sheetRoutes here).mp hx⟩
      · rintro ⟨⟨x, rfl⟩, found⟩
        exact ⟨x, (w.mem_sheetRoutes here).mpr found, rfl⟩
  | link target => exact absurd here (w.linkless r target)
  | file b =>
    have noDirectory : t.isDirectory (root.path.extend r) = false := by
      rw [Bool.eq_false_iff, ne_eq, w.isDirectory_iff here]
      exact Entry.noConfusion
    have only {q : Route} {c : String} (below : r <+: q) (hq : t.cabinet top q = some c) : q = r := by
      obtain ⟨x, rfl⟩ := below
      obtain ⟨-, b', hb, -⟩ := Tree.cabinet_eq_some hq
      by_contra other
      rw [← List.append_assoc] at hb
      have := Tree.lookup?_of_below (by simpa using other) hb
      rw [here] at this
      cases this
    by_cases sheet : r.IsSheet
    · obtain ⟨c, hc⟩ := w.cabinet_file sheet here
      refine ⟨[r], ?_, ?_⟩
      · simp only [noDirectory, hf, w.isSheet, sheet, decide_true, Bool.false_eq_true, if_false, if_true,
          Feed.createdAt, w.withContent hf hc, List.map_singleton, hc, Option.getD_some]
        rfl
      · intro q
        rw [List.mem_singleton]
        constructor
        · rintro rfl
          exact ⟨List.prefix_rfl, c, hc⟩
        · rintro ⟨below, d, hd⟩
          exact only below hd
    · refine ⟨[], ?_, ?_⟩
      · simp only [noDirectory, hf, w.isSheet, sheet, decide_false, Bool.false_eq_true, if_false]
        rfl
      · intro q
        simp only [List.not_mem_nil, false_iff]
        rintro ⟨below, d, hd⟩
        rw [only below hd, Tree.cabinet_of_not_sheet sheet] at hd
        cases hd

/-- The messages report style sheets of the tree, and all that are not in the cabinet yet. -/
theorem Mirrored.report (h : Mirrored root limit C f) (w : Watched root top limit t) {event : Event}
    {routes : List Route} (called : f.messages t event =
      .ok (routes.map fun q => .created q.logicalName ((t.cabinet top q).getD "")))
    (found : ∀ q ∈ routes, ∃ c, t.cabinet top q = some c)
    (elsewhere : ∀ q, q ∉ routes → t.cabinet top q = C q) :
    ∃ g, f.handle t event = (.ok (), g) ∧ Mirrored root limit (t.cabinet top) g := by
  refine h.handle_fitting called ?_ ?_
  · intro m hm
    obtain ⟨q, hq, rfl⟩ := List.mem_map.mp hm
    obtain ⟨c, hc⟩ := found q hq
    rw [hc]
    exact Message.fits_created (w.fits_of_cabinet hc)
  · intro s account
    refine account.created (fun q => (t.cabinet top q).getD "") (fun q hq => ?_) (fun q hq => ?_) elsewhere
    · obtain ⟨c, hc⟩ := found q hq
      exact w.plain_of_cabinet hc
    · obtain ⟨c, hc⟩ := found q hq
      rw [hc]
      rfl

theorem Mirrored.created (h : Mirrored root limit C f) (w : Watched root top limit t)
    (here : t.lookup? (top ++ r) = some e)
    (gone : ∀ q, r <+: q → t.cabinet top q = none → C q = none)
    (elsewhere : ∀ q, ¬ r <+: q → t.cabinet top q = C q) :
    ∃ g, f.handle t (.change (.created (root.path.extend r))) = (.ok (), g) ∧
      Mirrored root limit (t.cabinet top) g := by
  obtain ⟨routes, called, mem⟩ := w.messages_created h.root_eq here
  refine h.report w called (fun q hq => ((mem q).mp hq).2) fun q hq => ?_
  by_cases below : r <+: q
  · have none : t.cabinet top q = none := by
      by_contra stored
      exact hq ((mem q).mpr ⟨below, Option.ne_none_iff_exists'.mp stored⟩)
    rw [none, gone q below none]
  · exact elsewhere q below

theorem Mirrored.modified {b : Bytes} (h : Mirrored root limit C f) (w : Watched root top limit t)
    (here : t.lookup? (top ++ r) = some (.file b)) (gone : t.cabinet top r = none → C r = none)
    (elsewhere : ∀ q, q ≠ r → t.cabinet top q = C q) :
    ∃ g, f.handle t (.change (.modified (root.path.extend r))) = (.ok (), g) ∧
      Mirrored root limit (t.cabinet top) g := by
  have noDirectory : t.isDirectory (root.path.extend r) = false := by
    rw [Bool.eq_false_iff, ne_eq, w.isDirectory_iff here]
    exact Entry.noConfusion
  by_cases sheet : r.IsSheet
  · obtain ⟨c, hc⟩ := w.cabinet_file sheet here
    have isSheet : f.root.isSheet (root.path.extend r) := by simp [h.root_eq, w.isSheet, sheet]
    have called := Feed.messages_modified isSheet noDirectory (w.withContent h.root_eq hc .modified)
    refine h.handle_fitting called ?_ ?_
    · intro m hm
      rw [List.mem_singleton.mp hm]
      exact w.fits_of_cabinet hc
    · intro s account
      exact account.put sheet (w.plain_of_cabinet hc).2 c hc elsewhere
  · have boring : ¬ f.root.isSheet (root.path.extend r) := by simp [h.root_eq, w.isSheet, sheet]
    have called := Feed.messages_modified_other (t := t) fun other => boring other.1
    have same : t.cabinet top = C := by
      funext q
      by_cases hq : q = r
      · have none : t.cabinet top r = none := Tree.cabinet_of_not_sheet sheet
        rw [hq, none, gone none]
      · exact elsewhere q hq
    rw [same]
    exact h.handle_fitting called (List.forall_mem_nil _) fun s account => account

/-! ## Something went away -/

/-- Of a style sheet at or below a place the place has its name, or holds it. -/
theorem Route.named_or_holds_iff {q : Route} (hr : r ≠ []) (plain : r.Plain) (sheet : q.IsSheet) (plain' : q.Plain) :
    (r.IsSheet ∧ r.logicalName = q.logicalName) ∨ r.Holds q.logicalName ↔ r <+: q := by
  rw [holds_logicalName hr plain sheet plain']
  constructor
  · rintro (⟨sheet', same⟩ | ⟨x, -, rfl⟩)
    · exact logicalName_injective sheet' sheet plain plain' same ▸ List.prefix_rfl
    · exact List.prefix_append r x
  · rintro ⟨x, rfl⟩
    by_cases hx : x = []
    · rw [hx, List.append_nil] at sheet ⊢
      exact .inl ⟨sheet, rfl⟩
    · exact .inr ⟨x, hx, rfl⟩

/-- The names of which no message can be sent do not matter, as there are no style sheets of these names. -/
theorem Account.after_deleted {names : List String} {s : Shelf} {k : Names} (account : Account C s k)
    (fits : ∀ q c, C q = some c → Fits limit (.deleted q.logicalName))
    (gone : ∀ q, C q ≠ none → q.logicalName ∈ names → C' q = none)
    (elsewhere : ∀ q, (C q ≠ none → q.logicalName ∉ names) → C' q = C q) :
    After C' s k ((names.map Message.deleted).filter (Fits limit ·)) := by
  rw [List.filter_map]
  refine account.deleted ?_ ?_
  · intro q hq
    rw [List.mem_filter] at hq
    by_cases stored : C q = none
    · rw [elsewhere q fun h => absurd stored h, stored]
    · exact gone q stored hq.1
  · intro q hq
    refine elsewhere q fun stored hn => hq ?_
    obtain ⟨c, hc⟩ := Option.ne_none_iff_exists'.mp stored
    exact List.mem_filter.mpr ⟨hn, by simpa using fits q c hc⟩

theorem Mirrored.deleted (h : Mirrored root limit (t.cabinet top) f) (w : Watched root top limit t)
    (hr : r ≠ []) (plain : r.Plain) (gone : ∀ q, r <+: q → t'.cabinet top q = none)
    (elsewhere : ∀ q, ¬ r <+: q → t'.cabinet top q = t.cabinet top q) :
    ∃ g, f.handle t' (.change (.deleted (root.path.extend r))) = (.ok (), g) ∧
      Mirrored root limit (t'.cabinet top) g := by
  have leads : f.root.Leads r (root.path.extend r) := h.root_eq ▸ Root.leads_extend root r
  obtain ⟨names, called, mem⟩ := Feed.messages_deleted (t := t') leads hr plain
  have below {s : Shelf} (account : Account (t.cabinet top) s f.known) {q : Route}
      (stored : t.cabinet top q ≠ none) : q.logicalName ∈ names ↔ r <+: q := by
    obtain ⟨c, hc⟩ := Option.ne_none_iff_exists'.mp stored
    obtain ⟨sheet, plain'⟩ := w.plain_of_cabinet hc
    have known : q.logicalName ∈ f.known :=
      (account.known _).mpr ⟨c, (account.content _ _).mpr ⟨q, hc, rfl⟩⟩
    rw [mem, ← Route.named_or_holds_iff hr plain sheet plain']
    simp [known]
  refine h.handle called fun s account => account.after_deleted ?_ ?_ ?_
  · intro q c hc
    exact Message.fits_deleted (w.fits_of_cabinet hc)
  · intro q stored hq
    exact gone q ((below account stored).mp hq)
  · intro q hq
    by_cases hp : r <+: q
    · by_contra changed
      have stored : t.cabinet top q ≠ none := fun none => changed (by rw [gone q hp, none])
      exact hq stored ((below account stored).mpr hp)
    · exact elsewhere q hp

/-! ## Something moved -/

theorem Watched.movedFile {c : String} (w : Watched root top limit t) (hf : f.root = root) (plain : r.Plain)
    (hs : t.cabinet top s = some c) (other : r ≠ s) :
    f.movedFile t (root.path.extend r) (root.path.extend s) = .ok (some (Account.move r s c)) := by
  obtain ⟨sheet, plain'⟩ := w.plain_of_cabinet hs
  subst hf
  refine Feed.movedFile_of_leads (Root.leads_extend _ r) (Root.leads_extend _ s) sheet
    (w.readText hs) fun hr same => ?_
  exact other (Route.logicalName_injective hr sheet plain plain' same)

theorem Account.fits_move {c : String} (created : Fits limit (.created s.logicalName c))
    (renamed : r.IsSheet → Fits limit (.renamed r.logicalName s.logicalName)) :
    Fits limit (Account.move r s c) := by
  unfold Account.move
  split
  · exact renamed ‹_›
  · exact created

theorem Mirrored.movedFile {b : Bytes} (h : Mirrored root limit (t.cabinet top) f)
    (w : Watched root top limit t) (w' : Watched root top limit t') (other : r ≠ s)
    (old : t.lookup? (top ++ r) = some (.file b)) (new : t'.lookup? (top ++ s) = some (.file b))
    (goneC : t'.cabinet top r = none)
    (elsewhere : ∀ q, q ≠ r → q ≠ s → t'.cabinet top q = t.cabinet top q)
    (fits : ∀ ms, f.messages t' (.change (.moved (root.path.extend r) (root.path.extend s))) = .ok ms →
      ∀ o n, .renamed o n ∈ ms → Fits limit (.renamed o n)) :
    ∃ g, f.handle t' (.change (.moved (root.path.extend r) (root.path.extend s))) = (.ok (), g) ∧
      Mirrored root limit (t'.cabinet top) g := by
  have noDirectory : t'.isDirectory (root.path.extend s) = false := by
    rw [Bool.eq_false_iff, ne_eq, w'.isDirectory_iff new]
    exact Entry.noConfusion
  have called {m : Option Message}
      (h : f.movedFile t' (root.path.extend r) (root.path.extend s) = .ok m) :
      f.messages t' (.change (.moved (root.path.extend r) (root.path.extend s))) = .ok m.toList :=
    Feed.messages_moved_file noDirectory h
  by_cases hs : s.IsSheet
  · obtain ⟨c, hc⟩ := w'.cabinet_file hs new
    have hold (hr : r.IsSheet) : t.cabinet top r = some c := by
      rw [Tree.cabinet_of_file hr old, ← Tree.cabinet_of_file hs new, hc]
    have called := called (w'.movedFile h.root_eq (w.plain r _ old) hc other)
    refine h.handle_fitting called ?_ ?_
    · intro m hm
      rw [List.mem_singleton.mp hm]
      refine Account.fits_move (Message.fits_created (w'.fits_of_cabinet hc)) ?_
      intro hr
      refine fits _ called _ _ (List.mem_singleton.mpr ?_)
      rw [Account.move, if_pos hr]
    · intro _ account
      exact account.after_move hold hs (w'.plain_of_cabinet hc).2 hc goneC elsewhere
  -- at its new place it is no style sheet
  have sameC (q : Route) (hq : q ≠ r) : t'.cabinet top q = t.cabinet top q := by
    by_cases hqs : q = s
    · rw [hqs, Tree.cabinet_of_not_sheet hs, Tree.cabinet_of_not_sheet hs]
    · exact elsewhere q hq hqs
  by_cases hr : r.IsSheet
  · obtain ⟨c, hc⟩ := w.cabinet_file hr old
    have called : f.messages t' (.change (.moved (root.path.extend r) (root.path.extend s))) =
        .ok [.deleted r.logicalName] := by
      apply called (m := some _)
      rw [Feed.movedFile, h.root_eq, w.isSheet, w.isSheet, w.name]
      simp only [hr, hs, decide_true, decide_false]
      rfl
    refine h.handle_fitting called ?_ ?_
    · intro m hm
      rw [List.mem_singleton.mp hm]
      exact Message.fits_deleted (w.fits_of_cabinet hc)
    · intro _ account
      exact account.drop_route hr (w.plain_of_cabinet hc).2 goneC sameC
  · have called : f.messages t' (.change (.moved (root.path.extend r) (root.path.extend s))) = .ok [] := by
      apply called (m := none)
      rw [Feed.movedFile, h.root_eq, w.isSheet, w.isSheet]
      simp only [hr, hs, decide_false]
      rfl
    have same : t'.cabinet top = t.cabinet top := by
      funext q
      by_cases hq : q = r
      · rw [hq, goneC, Tree.cabinet_of_not_sheet hr]
      · exact sameC q hq
    rw [same]
    exact h.handle_fitting called (List.forall_mem_nil _) fun _ account => account

/-- The messages about a directory that has moved: one for each style sheet in it, and then those about the
names that are not used again. -/
theorem Watched.movedDirectory (w : Watched root top limit t) (hf : f.root = root) (hr : r ≠ [])
    (plain : r.Plain) (here : t.lookup? (top ++ s) = some .directory)
    (plainBelow : ∀ x c, t.cabinet top (s ++ x) = some c → Route.Plain (r ++ x))
    (apart : ∀ x y, r ++ x ≠ s ++ y) :
    ∃ gone : List String, f.movedDirectory t (root.path.extend r) (root.path.extend s) =
        .ok (((t.sheetRoutes root (root.path.extend s)).map fun x =>
          Account.move (r ++ x) (s ++ x) ((t.cabinet top (s ++ x)).getD "")) ++ gone.map .deleted) ∧
      ∀ q : Route, q.IsSheet → q.Plain →
        (q.logicalName ∈ gone ↔ q.logicalName ∈ f.known ∧
          ∃ x, x ≠ [] ∧ q = r ++ x ∧ t.cabinet top (s ++ x) = none) := by
  subst hf
  have stored {x : Route} (hx : x ∈ t.sheetRoutes f.root (f.root.path.extend s)) :
      ∃ c, t.cabinet top (s ++ x) = some c := (w.mem_sheetRoutes here).mp hx
  obtain ⟨gone, called, mem⟩ := Feed.movedDirectory_of_leads (Root.leads_extend _ r)
    (Root.leads_extend _ s) hr plain (fun x => (t.cabinet top (s ++ x)).getD "")
    (fun x hx => by
      obtain ⟨c, hc⟩ := stored hx
      rw [← Path.extend_append, hc]
      exact w.readText hc)
    (fun x hx sheet same => by
      obtain ⟨c, hc⟩ := stored hx
      obtain ⟨sheet', plain'⟩ := w.plain_of_cabinet hc
      exact apart x x (Route.logicalName_injective sheet sheet' (plainBelow x c hc) plain' same))
  refine ⟨gone, called, fun q sheet plain' => ?_⟩
  rw [mem, Route.holds_logicalName hr plain sheet plain', and_assoc]
  refine and_congr_right fun _ => ?_
  constructor
  · rintro ⟨⟨x, hx, rfl⟩, unused⟩
    refine ⟨x, hx, rfl, ?_⟩
    by_contra found
    have found := (w.mem_sheetRoutes here).mpr (Option.ne_none_iff_exists'.mp found)
    exact unused ⟨x, found, sheet, rfl⟩
  · rintro ⟨x, hx, rfl, none⟩
    refine ⟨⟨x, hx, rfl⟩, ?_⟩
    rintro ⟨y, hy, sheet', same⟩
    obtain ⟨c, hc⟩ := stored hy
    have same := Route.logicalName_injective sheet' sheet (plainBelow y c hc) plain' same
    rw [List.append_cancel_left same, none] at hc
    cases hc

/-- The directory at `r` has become the one at `s`. -/
structure Relocated (top : Route) (t t' : Tree) (r s : Route) : Prop where
  old : t.lookup? (top ++ r) = some .directory
  new : t'.lookup? (top ++ s) = some .directory
  apart : ∀ x y, r ++ x ≠ s ++ y
  same : ∀ x, t'.lookup? (top ++ (s ++ x)) = t.lookup? (top ++ (r ++ x))
  gone : ∀ x, t'.cabinet top (r ++ x) = none
  free : ∀ x, t.cabinet top (s ++ x) = none
  elsewhere : ∀ q, ¬ r <+: q → ¬ s <+: q → t'.cabinet top q = t.cabinet top q

/-- What the browser has when all renames are sent and no deletion is: below `r` what is not used again still
stands. -/
def Cabinet.midway (top : Route) (t t' : Tree) (r s : Route) : Cabinet := fun q =>
  match r.isPrefixOf? q with
  | some x => if t'.cabinet top (s ++ x) = none then t.cabinet top q else none
  | none => t'.cabinet top q

theorem Cabinet.midway_below (top : Route) (t t' : Tree) (r s x : Route) :
    midway top t t' r s (r ++ x) = if t'.cabinet top (s ++ x) = none then t.cabinet top (r ++ x) else none := by
  simp only [midway, List.isPrefixOf?_eq_some_iff_append_eq.mpr (rfl : r ++ x = r ++ x)]

theorem Cabinet.midway_outside {q : Route} (hq : ¬ r <+: q) : midway top t t' r s q = t'.cabinet top q := by
  have : r.isPrefixOf? q = none := by
    cases hx : r.isPrefixOf? q with
    | none => rfl
    | some x => exact absurd ⟨x, List.isPrefixOf?_eq_some_iff_append_eq.mp hx⟩ hq
  simp only [midway, this]

namespace Relocated

/-- A style sheet below `s` was below `r`, as a style sheet or not. -/
theorem came (moved : Relocated top t t' r s) (w : Watched root top limit t) {x : Route} {c : String}
    (hc : t'.cabinet top (s ++ x) = some c) :
    Route.Plain (r ++ x) ∧ (Route.IsSheet (r ++ x) → t.cabinet top (r ++ x) = some c) := by
  obtain ⟨sheet, b, hb, decoded⟩ := Tree.cabinet_eq_some hc
  rw [moved.same] at hb
  exact ⟨w.plain _ _ hb, fun sheet => by rw [Tree.cabinet_of_file sheet hb, decoded]⟩

theorem after_moves (moved : Relocated top t t' r s) (w : Watched root top limit t)
    (w' : Watched root top limit t') {shelf : Shelf} {k : Names} (account : Account (t.cabinet top) shelf k) :
    Account.After (.midway top t t' r s) shelf k ((t'.sheetRoutes root (root.path.extend s)).map fun x =>
      Account.move (r ++ x) (s ++ x) ((t'.cabinet top (s ++ x)).getD "")) := by
  have stored {x : Route} (hx : x ∈ t'.sheetRoutes root (root.path.extend s)) :
      ∃ c, t'.cabinet top (s ++ x) = some c := (w'.mem_sheetRoutes moved.new).mp hx
  refine account.moved (fun x => (t'.cabinet top (s ++ x)).getD "") ((t'.nodup_walk _).filter _) moved.apart
    ?_ ?_ ?_ ?_ ?_
  · intro x hx sheet
    obtain ⟨c, hc⟩ := stored hx
    rw [(moved.came w hc).2 sheet, hc]
    rfl
  · intro x hx
    obtain ⟨c, hc⟩ := stored hx
    exact w'.plain_of_cabinet hc
  · intro x hx
    obtain ⟨c, hc⟩ := stored hx
    rw [Cabinet.midway_outside fun ⟨y, hy⟩ => moved.apart y x hy, hc]
    rfl
  · intro x hx
    obtain ⟨c, hc⟩ := stored hx
    rw [Cabinet.midway_below, hc]
    exact if_neg nofun
  · intro q hq
    have unused {x : Route} (hx : q = r ++ x ∨ q = s ++ x) : t'.cabinet top (s ++ x) = none := by
      cases hc : t'.cabinet top (s ++ x) with
      | none => rfl
      | some c =>
        have := hq x ((w'.mem_sheetRoutes moved.new).mpr ⟨c, hc⟩)
        exact absurd hx (not_or.mpr this)
    by_cases hqr : r <+: q
    · obtain ⟨x, rfl⟩ := hqr
      rw [Cabinet.midway_below, if_pos (unused (.inl rfl))]
    rw [Cabinet.midway_outside hqr]
    by_cases hqs : s <+: q
    · obtain ⟨x, rfl⟩ := hqs
      rw [unused (.inr rfl), moved.free]
    · exact moved.elsewhere q hqr hqs

/-- Then the names that are not used again are taken back. -/
theorem after_deletions (moved : Relocated top t t' r s) (w : Watched root top limit t)
    (w' : Watched root top limit t') {shelf : Shelf} {k : Names} {names : List String}
    (account : Account (.midway top t t' r s) shelf k)
    (mem : ∀ q : Route, q.IsSheet → q.Plain → (t.cabinet top q ≠ none ∨ ¬ r <+: q) →
      (q.logicalName ∈ names ↔ ∃ x, q = r ++ x ∧ t'.cabinet top (s ++ x) = none)) :
    Account.After (t'.cabinet top) shelf k ((names.map Message.deleted).filter (Fits limit ·)) := by
  refine account.after_deleted ?_ ?_ ?_
  · intro q c hc
    by_cases hqr : r <+: q
    · obtain ⟨x, rfl⟩ := hqr
      rw [Cabinet.midway_below] at hc
      split at hc
      · exact Message.fits_deleted (w.fits_of_cabinet hc)
      · cases hc
    · rw [Cabinet.midway_outside hqr] at hc
      exact Message.fits_deleted (w'.fits_of_cabinet hc)
  · intro q stored hq
    by_cases hqr : r <+: q
    · obtain ⟨x, rfl⟩ := hqr
      exact moved.gone x
    · rw [Cabinet.midway_outside hqr] at stored
      obtain ⟨c, hc⟩ := Option.ne_none_iff_exists'.mp stored
      obtain ⟨sheet, plain⟩ := w'.plain_of_cabinet hc
      obtain ⟨x, rfl, -⟩ := (mem q sheet plain (.inr hqr)).mp hq
      exact absurd (List.prefix_append r x) hqr
  · intro q hq
    by_cases hqr : r <+: q
    · obtain ⟨x, rfl⟩ := hqr
      rw [moved.gone]
      by_contra stored
      have unnamed := hq (Ne.symm stored)
      rw [Cabinet.midway_below] at stored
      split at stored
      · rename_i none
        obtain ⟨c, hc⟩ := Option.ne_none_iff_exists'.mp (Ne.symm stored)
        obtain ⟨sheet, plain⟩ := w.plain_of_cabinet hc
        exact unnamed ((mem _ sheet plain (.inl (Ne.symm stored))).mpr ⟨x, rfl, none⟩)
      · exact stored rfl
    · exact (Cabinet.midway_outside hqr).symm

end Relocated

theorem Mirrored.movedDirectory (h : Mirrored root limit (t.cabinet top) f)
    (w : Watched root top limit t) (w' : Watched root top limit t') (hr : r ≠ [])
    (moved : Relocated top t t' r s)
    (fits : ∀ ms, f.messages t' (.change (.moved (root.path.extend r) (root.path.extend s))) = .ok ms →
      ∀ o n, .renamed o n ∈ ms → Fits limit (.renamed o n)) :
    ∃ g, f.handle t' (.change (.moved (root.path.extend r) (root.path.extend s))) = (.ok (), g) ∧
      Mirrored root limit (t'.cabinet top) g := by
  obtain ⟨names, messages, mem⟩ := w'.movedDirectory h.root_eq hr (w.plain r _ moved.old) moved.new
    (fun x c hc => (moved.came w hc).1) moved.apart
  have directory : t'.isDirectory (root.path.extend s) = true := (w'.isDirectory_iff moved.new).mpr rfl
  have called := (Feed.messages_moved_directory directory).trans messages
  have fitsMoved : ∀ m ∈ (t'.sheetRoutes root (root.path.extend s)).map fun x =>
      Account.move (r ++ x) (s ++ x) ((t'.cabinet top (s ++ x)).getD ""), Fits limit m := by
    intro m hm
    obtain ⟨x, hx, rfl⟩ := List.mem_map.mp hm
    obtain ⟨c, hc⟩ := (w'.mem_sheetRoutes moved.new).mp hx
    rw [hc]
    refine Account.fits_move (Message.fits_created (w'.fits_of_cabinet hc)) ?_
    intro sheet
    refine fits _ called _ _ (List.mem_append_left _ (List.mem_map.mpr ⟨x, hx, ?_⟩))
    rw [Account.move, if_pos sheet]
  refine h.handle called ?_
  intro _ account
  rw [List.filter_append, List.filter_eq_self.mpr fun m hm => decide_eq_true (fitsMoved m hm)]
  refine Account.after_append (moved.after_moves w w' account) ?_
  intro _ _ between
  refine moved.after_deletions w w' between ?_
  intro q sheet plain standing
  rw [mem q sheet plain]
  constructor
  · rintro ⟨-, x, -, rfl, none⟩
    exact ⟨x, rfl, none⟩
  · rintro ⟨x, rfl, none⟩
    have stored : t.cabinet top (r ++ x) ≠ Option.none :=
      standing.resolve_right (not_not.mpr (List.prefix_append r x))
    obtain ⟨c, hc⟩ := Option.ne_none_iff_exists'.mp stored
    refine ⟨(account.known _).mpr ⟨c, (account.content _ _).mpr ⟨_, hc, rfl⟩⟩, x, ?_, rfl, none⟩
    rintro rfl
    rw [List.append_nil, Tree.cabinet_of_not_file (by simp [moved.old])] at hc
    cases hc

end
end StyleFeed
