import StyleFeed.Proofs.Changes
import StyleFeed.Proofs.Origins

/-!
Names and the places that they stand for. The style sheet of a name is looked for at `Root.home`:

* `Root.home_logicalName`: that is the path from the root by the names that lead to the style sheet;
* `Root.IsName.exists_route`: every name comes from names that are text, as all names are shown as such;
* `Root.Covers.inside_iff_holds`, `Root.Covers.within_home`: the names of the style sheets below a path are those that
  begin with its own name and a slash;
* `Root.Covers.not_holds_of_apart`: so no name is below two places of which neither lies in the other.
-/

namespace StyleFeed

namespace Path

/-- The path is at the other one or below it. -/
def Within (p q : Path) : Prop := (p.below? q).isSome

instance (p q : Path) : Decidable (p.Within q) := inferInstanceAs (Decidable (_ = true))

/-- The path is below the other one. -/
def Inside (p q : Path) : Prop := ∃ c cs, p.below? q = some (c :: cs)

/-- Neither path is at the other one or below it. -/
def Apart (p q : Path) : Prop := ¬ p.Within q ∧ ¬ q.Within p

instance (p q : Path) : Decidable (p.Apart q) := inferInstanceAs (Decidable (_ ∧ _))

theorem Apart.symm {p q : Path} (h : p.Apart q) : q.Apart p := And.symm h

theorem below?_eq_some_iff {p q : Path} {cs : List Component} :
    p.below? q = some cs ↔ q.components ++ cs = p.components := List.isPrefixOf?_eq_some_iff_append_eq

theorem within_iff {p q : Path} : p.Within q ↔ q.components <+: p.components := by
  rw [Within, Option.isSome_iff_exists]
  exact exists_congr fun cs => below?_eq_some_iff

theorem Inside.within {p q : Path} (h : p.Inside q) : p.Within q := by
  obtain ⟨c, cs, below⟩ := h
  exact Option.isSome_of_eq_some below

/-- What is at or below two paths is so because one of them is at or below the other. -/
theorem not_within_of_apart {p q r : Path} (apart : p.Apart q) (h : r.Within p) : ¬ r.Within q := by
  intro h'
  rw [within_iff] at h h'
  rcases List.prefix_or_prefix_of_prefix h h' with into | outOf
  · exact apart.2 (within_iff.mpr into)
  · exact apart.1 (within_iff.mpr outOf)

/-- To join a path and then go on is to join the longer path. -/
theorem join_append (p : Path) {b : Bytes} (nonempty : b ≠ []) (more : Bytes) :
    p.join ⟨b ++ more⟩ = ⟨(p.join ⟨b⟩).bytes ++ more⟩ := by
  have first : (⟨b ++ more⟩ : Path).isAbsolute = (⟨b⟩ : Path).isAbsolute := by
    obtain ⟨x, rest, rfl⟩ := List.exists_cons_of_ne_nil nonempty
    rfl
  unfold join
  rw [first]
  split
  · rfl
  split
  · simp
  · simp

end Path

namespace FileName

theorem isProper_encode_text (n : FileName) : IsProper (Utf8.encode n.text) := by
  have other {s : String} (ascii : ∀ c ∈ s.toList, Utf8.IsAscii c) (h : Utf8.encode n.text = Utf8.encode s) :
      n.bytes = Utf8.encode s := bytes_of_text ascii (Utf8.encode_injective h)
  refine ⟨fun h => n.proper.1 ?_, fun h => ?_, fun h => n.proper.2.2.1 ?_, fun h => n.proper.2.2.2 ?_⟩
  · exact other (s := "") (by simp) h
  · exact n.slash_notMem_text (Utf8.mem_of_mem_encode (c := '/') (by decide) h)
  · exact other (s := ".") (by simp [Utf8.IsAscii]) h
  · exact other (s := "..") (by simp [Utf8.IsAscii]) h

/-- The name as it is shown, which is text. -/
def shown (n : FileName) : FileName := ⟨Utf8.encode n.text, n.isProper_encode_text⟩

theorem text_shown (n : FileName) : n.shown.text = n.text :=
  Utf8.lossy_of_decode (Utf8.decode?_encode n.text)

theorem isText_shown (n : FileName) : n.shown.IsText :=
  Option.isSome_of_eq_some (Utf8.decode?_encode n.text)

theorem shown_of_isText {n : FileName} (h : n.IsText) : n.shown = n := by
  cases n
  simp only [shown, FileName.mk.injEq]
  exact encode_text h

end FileName

namespace Route

/-- The names on the way as they are shown. -/
def shown (r : Route) : Route := r.map FileName.shown

variable {r : Route}

theorem plain_shown (r : Route) : r.shown.Plain := by
  intro n hn
  obtain ⟨m, -, rfl⟩ := List.mem_map.mp hn
  exact m.isText_shown

theorem shown_append (r s : Route) : shown (r ++ s) = r.shown ++ s.shown := List.map_append

theorem shown_of_plain (plain : r.Plain) : r.shown = r := by
  rw [shown, List.map_congr_left fun n hn => FileName.shown_of_isText (plain n hn)]
  exact List.map_id' r

theorem texts_shown (r : Route) : r.shown.texts = r.texts := by
  rw [texts, shown, List.map_map]
  apply List.map_congr_left
  intro n _
  rw [Function.comp_apply, FileName.text_shown]

theorem isSheet_shown (h : r.IsSheet) : r.shown.IsSheet := by
  obtain ⟨d, n, rfl, sheet⟩ := h.exists_concat
  have last : n.shown = n := FileName.shown_of_isText (FileName.isText_of_isSheet sheet)
  have split : shown (d ++ [n]) = d.map FileName.shown ++ [n] := by simp [shown, last]
  rw [split, isSheet_concat]
  refine ⟨sheet, fun git => ?_⟩
  rw [← split] at git
  obtain ⟨m, hm, same⟩ := List.mem_map.mp git
  have text : m.text.toList = ".git".toList := by
    rw [← m.text_shown, same]
    decide +kernel
  exact h.git_notMem (FileName.eq_git_of_text text ▸ hm)

theorem logicalName_shown (h : r.IsSheet) : r.shown.logicalName = r.logicalName :=
  (logicalName_eq_iff (isSheet_shown h) h).mpr (texts_shown r)

theorem joined_concat {d : Route} (hd : d ≠ []) (n : FileName) : joined (d ++ [n]) = joined d ++ "/" ++ n.text := by
  apply String.toList_inj.mp
  rw [joined_append hd (List.cons_ne_nil n [])]
  simp [joined]

/-- A style sheet is called what its path is, but for the extension. -/
theorem logicalName_append (h : r.IsSheet) : r.logicalName ++ ".css" = r.joined := by
  obtain ⟨d, n, rfl, sheet⟩ := h.exists_concat
  obtain ⟨m, whole, text, short⟩ := logicalName_concat (d := d) sheet
  have last : m.text ++ ".css" = n.text := by
    apply Utf8.encode_injective
    rw [FileName.encode_text (FileName.isText_of_isSheet sheet), whole, Utf8.encode_eq, String.toList_append,
      Utf8.encodeChars_append, ← Utf8.encode_eq, FileName.encode_text text]
    rfl
  rw [short]
  by_cases hd : d = []
  · simp [hd, joined, last]
  · rw [joined_concat hd, joined_concat hd, String.append_assoc, last]

end Route

/-- To join the names as one text is to go on by each of them. -/
theorem Path.join_joined (p : Path) {r : Route} (hr : r ≠ []) (plain : r.Plain) :
    p.join (.ofString r.joined) = p.extend r := by
  induction r using List.reverseRec with
  | nil => exact absurd rfl hr
  | append_singleton d n ih =>
    have ⟨plainBefore, plainLast⟩ := Route.Plain.append_iff.mp plain
    have text : n.IsText := plainLast n List.mem_cons_self
    cases d using List.reverseRec with
    | nil =>
      have alone : Path.ofString (Route.joined [n]) = ⟨n.bytes⟩ := by
        simp [Route.joined, ofString, FileName.encode_text text]
      rw [List.nil_append, alone]
      rfl
    | append_singleton d m =>
      have before : d ++ [m] ≠ [] := by simp
      have longer : Path.ofString (Route.joined (d ++ [m] ++ [n])) =
          ⟨Utf8.encode (Route.joined (d ++ [m])) ++ slash :: n.bytes⟩ := by
        rw [Route.joined_concat before, ofString, Utf8.encode_eq, String.toList_append, String.toList_append,
          Utf8.encodeChars_append, Utf8.encodeChars_append, ← Utf8.encode_eq, ← Utf8.encode_eq,
          ← Utf8.encode_eq, FileName.encode_text text, List.append_assoc]
        rfl
      have nonempty : Utf8.encode (Route.joined (d ++ [m])) ≠ [] := by
        intro nothing
        apply Route.joined_ne_empty before plainBefore
        exact Utf8.encode_injective nothing
      have first : p.join ⟨Utf8.encode (Route.joined (d ++ [m]))⟩ = (p.extend d).child m :=
        (ih before plainBefore).trans (extend_append p d [m])
      have last : p.extend (d ++ [m] ++ [n]) = ((p.extend d).child m).child n := by
        rw [extend_append, extend_append]
        rfl
      have bytes := bytes_child (bytes_child_ne_nil (p.extend d) m) n
      rw [if_neg (getLast?_child (p.extend d) m)] at bytes
      rw [longer, join_append p nonempty, first, last, ← bytes]

namespace Root

/-- Where the style sheet of a name is: `root/a/b.css` for `a/b`. -/
def home (root : Root) (n : String) : Path := root.path.join (.ofString (n ++ ".css"))

/-- Names that are text lead to the path from the root. -/
def Covers (root : Root) (p : Path) : Prop := ∃ r, root.Leads r p ∧ r.Plain

/-- The names that the path has below the root. -/
def names? (root : Root) (p : Path) : Option Route := (p.below? root.path).map (·.filterMap Component.fileName?)

variable {root : Root} {r s : Route} {p q : Path} {n : String}

theorem Leads.names? (h : root.Leads r p) : root.names? p = some r := by
  rw [Root.names?, h, Option.map_some, List.filterMap_map]
  exact congrArg some List.filterMap_some

instance : DecidablePred root.Covers := fun p =>
  decidable_of_iff (∃ r ∈ root.names? p, root.Leads r p ∧ r.Plain)
    ⟨fun ⟨r, _, leads⟩ => ⟨r, leads⟩, fun ⟨r, leads, plain⟩ => ⟨r, leads.names?, leads, plain⟩⟩

theorem home_logicalName (sheet : r.IsSheet) (plain : r.Plain) : root.home r.logicalName = root.path.extend r := by
  have nonempty : r ≠ [] := by
    rintro rfl
    cases sheet
  rw [home, Route.logicalName_append sheet, Path.join_joined root.path nonempty plain]

theorem leads_home (sheet : r.IsSheet) (plain : r.Plain) : root.Leads r (root.home r.logicalName) := by
  rw [home_logicalName sheet plain]
  exact leads_extend root r

/-- Whatever a style sheet is called, a style sheet on a way of names that are text is called so. -/
theorem IsName.exists_route (h : root.IsName n) : ∃ r : Route, r.IsSheet ∧ r.Plain ∧ r.logicalName = n := by
  obtain ⟨p, sheet, named⟩ := h
  obtain ⟨r, isSheet, logical, -⟩ := exists_route_of_isSheet sheet
  refine ⟨r.shown, Route.isSheet_shown isSheet, Route.plain_shown r, ?_⟩
  rw [Route.logicalName_shown isSheet]
  exact Except.ok.inj (logical.symm.trans named)

namespace Leads

theorem within_iff (hp : root.Leads r p) (hq : root.Leads s q) : p.Within q ↔ s <+: r := by
  rw [Path.within_iff, ← Path.below?_eq_some_iff.mp hp, ← Path.below?_eq_some_iff.mp hq,
    List.prefix_append_right_inj]
  exact List.prefix_map_iff_of_injective fun _ _ => Component.name.inj

theorem inside_iff (hp : root.Leads r p) (hq : root.Leads s q) : p.Inside q ↔ ∃ x, x ≠ [] ∧ r = s ++ x := by
  have below (x : Route) : p.below? q = some (x.map .name) ↔ r = s ++ x := by
    rw [Path.below?_eq_some_iff, ← Path.below?_eq_some_iff.mp hp, ← Path.below?_eq_some_iff.mp hq, List.append_assoc,
      List.append_right_inj, ← List.map_append, List.map_inj_right fun _ _ => Component.name.inj, eq_comm]
  constructor
  · intro inside
    obtain ⟨x, rfl⟩ := (hp.within_iff hq).mp inside.within
    obtain ⟨c, cs, more⟩ := inside
    refine ⟨x, ?_, rfl⟩
    rintro rfl
    cases more.symm.trans ((below []).mpr rfl)
  · rintro ⟨x, hx, rfl⟩
    obtain ⟨n, rest, rfl⟩ := List.exists_cons_of_ne_nil hx
    exact ⟨_, _, (below _).mpr rfl⟩

theorem same_iff (hp : root.Leads r p) (hq : root.Leads s q) : p.same q ↔ r = s := by
  rw [Path.same_iff, ← Path.below?_eq_some_iff.mp hp, ← Path.below?_eq_some_iff.mp hq, List.append_right_inj,
    List.map_inj_right fun _ _ => Component.name.inj]

end Leads

namespace Covers

variable {x : Route} (covers : root.Covers p)
include covers

/-- A style sheet is below a path just if the path may hold its name. -/
theorem inside_iff_holds (covers' : root.Covers q) (sheet : root.isSheet q) (named : root.name q = .ok n) :
    q.Inside p ↔ root.Holds p n := by
  obtain ⟨r, leads, plain⟩ := covers
  obtain ⟨s, leads', plain'⟩ := covers'
  have isSheet : s.IsSheet := leads'.isSheet_iff.mp sheet
  obtain rfl := Except.ok.inj (leads'.name.symm.trans named)
  rw [leads'.inside_iff leads, leads.holds_iff plain]
  by_cases hr : r = []
  · subst hr
    have nonempty : s ≠ [] := by
      rintro rfl
      cases isSheet
    simpa using nonempty
  · rw [Route.holds_logicalName hr plain isSheet plain']
    simp [hr]

/-- The names of the style sheets below a path are those that it may hold. -/
theorem inside_home_iff (isName : root.IsName n) : (root.home n).Inside p ↔ root.Holds p n := by
  obtain ⟨r, sheet, plain, rfl⟩ := isName.exists_route
  have leads : root.Leads r (root.home r.logicalName) := leads_home sheet plain
  exact covers.inside_iff_holds ⟨r, leads, plain⟩ (leads.isSheet_iff.mpr sheet) leads.name

/-- The style sheets at and below a path have names whose places are there, text or not as they may be. -/
theorem within_home (sheet : root.isSheet (p.extend x)) (named : root.name (p.extend x) = .ok n) :
    (root.home n).Within p := by
  obtain ⟨r, leads, plain⟩ := covers
  have leads' := leads.extend x
  have isSheet := leads'.isSheet_iff.mp sheet
  obtain rfl := Except.ok.inj (leads'.name.symm.trans named)
  have there : root.Leads (Route.shown (r ++ x)) (root.home (Route.logicalName (r ++ x))) := by
    rw [← Route.logicalName_shown isSheet]
    exact leads_home (Route.isSheet_shown isSheet) (Route.plain_shown (r ++ x))
  rw [Route.shown_append, Route.shown_of_plain plain] at there
  exact (there.within_iff leads).mpr (List.prefix_append r x.shown)

theorem holds_name (below : x ≠ []) (sheet : root.isSheet (p.extend x)) (named : root.name (p.extend x) = .ok n) :
    root.Holds p n := by
  obtain ⟨r, leads, plain⟩ := covers
  have leads' := leads.extend x
  obtain rfl := Except.ok.inj (leads'.name.symm.trans named)
  rw [leads.holds_iff plain]
  by_cases hr : r = []
  · exact .inl hr
  · exact .inr (Route.holds_append hr below (leads'.isSheet_iff.mp sheet))

/-- No name is below two places of which neither lies in the other. -/
theorem not_holds_of_apart (covers' : root.Covers q) (apart : p.Apart q) (holds : root.Holds p n) :
    ¬ root.Holds q n := by
  obtain ⟨r, leads, plain⟩ := covers
  obtain ⟨s, leads', plain'⟩ := covers'
  have notInto : ¬ s <+: r := fun into => apart.1 ((leads.within_iff leads').mpr into)
  have notOutOf : ¬ r <+: s := fun outOf => apart.2 ((leads'.within_iff leads).mpr outOf)
  have nonempty : r ≠ [] := fun nothing => notOutOf (nothing ▸ List.nil_prefix)
  have nonempty' : s ≠ [] := fun nothing => notInto (nothing ▸ List.nil_prefix)
  intro holds'
  have first : r.Holds n := ((leads.holds_iff plain).mp holds).resolve_left nonempty
  have second : s.Holds n := ((leads'.holds_iff plain').mp holds').resolve_left nonempty'
  rcases Route.prefix_or_prefix_of_holds nonempty nonempty' plain plain' first second with outOf | into
  · exact notOutOf outOf
  · exact notInto into

end Covers

end Root
end StyleFeed
