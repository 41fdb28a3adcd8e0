import StyleFeed.Proofs.Lossy
import StyleFeed.Proofs.Paths
import StyleFeed.Sheet
import StyleFeed.Tree.Basic

/-!
What style sheets are called, as a matter of the names that lead to them:

* `Route.logicalName_injective`: two style sheets have two names, so long as all names are text;
* `Route.holds_logicalName`: the names of a directory's style sheets are those that begin with its own;
* `Root.Leads`: what is said of paths that go on from the root by names;
* `Root.exists_route_of_isSheet`: whatever its path, a style sheet is called after some such names.
-/

namespace StyleFeed

namespace Utf8

/-- What stands before a character below U+0080 is text on its own. -/
theorem exists_encode_of_ascii {l : List Char} {before after : Bytes} {b : UInt8} (h : b < 0x80)
    (hl : encodeChars l = before ++ b :: after) : ∃ m, encodeChars m = before := by
  induction l generalizing before with
  | nil => simp at hl
  | cons c l ih =>
    rw [encodeChars_cons] at hl
    rcases List.append_eq_append_iff.mp hl with ⟨more, hb, hm⟩ | ⟨more, hc, hm⟩
    · obtain ⟨m, rfl⟩ := ih hm
      exact ⟨c :: m, by rw [encodeChars_cons, hb]⟩
    · cases more with
      | nil =>
        rw [List.append_nil] at hc
        exact ⟨[c], by rw [encodeChars_cons, hc]; exact List.append_nil _⟩
      | cons x more =>
        obtain ⟨rfl, -⟩ := List.cons.inj hm
        by_cases ascii : c.toNat < 0x80
        · rw [encodeChar_ascii ascii] at hc
          have : before = [] := by
            have := congrArg List.length hc
            simp only [List.length_append, List.length_cons, List.length_nil] at this
            exact List.length_eq_zero_iff.mp (by omega)
          exact ⟨[], this.symm⟩
        · have high := le_of_mem_encodeChar (Nat.not_lt.mp ascii) (b := b) (by simp [hc])
          exact absurd h (UInt8.not_lt.mpr high)

end Utf8

namespace FileName

/-- The name is text. -/
def IsText (n : FileName) : Prop := (Utf8.decode? n.bytes).isSome

instance : DecidablePred IsText := fun _ => inferInstanceAs (Decidable (_ = true))

theorem encode_text {n : FileName} (h : n.IsText) : Utf8.encode n.text = n.bytes := by
  obtain ⟨s, hs⟩ := Option.isSome_iff_exists.mp h
  rw [text, Utf8.lossy_of_decode hs]
  exact Utf8.decode?_eq_some_iff.mp hs

theorem isText_iff_exists {n : FileName} : n.IsText ↔ ∃ s, Utf8.encode s = n.bytes := by
  rw [IsText, Option.isSome_iff_exists]
  exact exists_congr fun s => Utf8.decode?_eq_some_iff

theorem text_injective {n m : FileName} (hn : n.IsText) (hm : m.IsText) (h : n.text = m.text) : n = m := by
  have same : n.bytes = m.bytes := by rw [← encode_text hn, ← encode_text hm, h]
  cases n
  cases m
  simpa using same

theorem slash_notMem_text (n : FileName) : '/' ∉ n.text.toList := fun hs =>
  n.slash_notMem (Utf8.mem_of_mem_lossy (by decide) hs)

/-- Only these bytes are shown as this text, whether the name is text or not. -/
theorem bytes_of_text {n : FileName} {s : String} (ascii : ∀ c ∈ s.toList, Utf8.IsAscii c) (h : n.text = s) :
    n.bytes = Utf8.encode s := Utf8.eq_encode_of_lossy ascii h

theorem text_ne_nil (n : FileName) : n.text.toList ≠ [] := by
  intro nothing
  have empty : n.text = "" := String.toList_inj.mp (nothing.trans String.toList_empty.symm)
  exact n.ne_nil (bytes_of_text (by simp) empty)

theorem text_ne_empty {n : FileName} (h : n.IsText) : n.text ≠ "" := by
  intro he
  apply n.ne_nil
  rw [← encode_text h, he]
  rfl

theorem bytes_of_extension {n : FileName} {x : Bytes} (h : n.extension? = some x) :
    n.stem ≠ [] ∧ n.bytes = n.stem ++ dot :: x := by
  obtain ⟨⟨stem, extension⟩, hs, rfl⟩ := Option.map_eq_some_iff.mp h
  rw [FileName.stem, hs, Option.elim_some]
  have whole := List.takeWhile_append_dropWhile (p := (· != dot)) (l := n.bytes.reverse)
  unfold splitAtDot? at hs
  split at hs
  · rename_i last before more hd
    obtain ⟨rfl, rfl⟩ := Prod.mk.inj (Option.some.inj hs)
    refine ⟨by simp, ?_⟩
    have hl : last = dot := by
      have := List.head_dropWhile_not (p := (· != dot)) (l := n.bytes.reverse) (by simp [hd])
      simpa [hd] using this
    rw [hd, hl] at whole
    have := congrArg List.reverse whole
    simpa using this.symm
  · cases hs

theorem isText_of_isSheet {n : FileName} (h : n.isSheet) : n.IsText := by
  simp only [isSheet, Bool.and_eq_true] at h
  exact h.1.1

/-- A style sheet is called something that is a name itself, and then the extension. -/
theorem exists_stem {n : FileName} (h : n.isSheet) :
    ∃ m : FileName, m.bytes = n.stem ∧ n.bytes = m.bytes ++ dot :: sheetExtension ∧ m.IsText := by
  simp only [isSheet, Bool.and_eq_true, Bool.not_eq_true', isHidden, beq_eq_false_iff_ne, beq_iff_eq] at h
  obtain ⟨⟨text, visible⟩, extension⟩ := h
  obtain ⟨nonempty, whole⟩ := bytes_of_extension extension
  have visible' : n.stem.head? ≠ some dot := by
    intro hs
    rw [whole, List.head?_append, hs] at visible
    exact visible rfl
  have proper : IsProper n.stem := by
    refine ⟨nonempty, fun hs => n.slash_notMem ?_, fun hs => ?_, fun hs => ?_⟩
    · rw [whole]
      exact List.mem_append_left _ hs
    · exact visible' (by rw [hs]; rfl)
    · exact visible' (by rw [hs]; rfl)
  refine ⟨⟨n.stem, proper⟩, rfl, whole, isText_iff_exists.mpr ?_⟩
  obtain ⟨s, hs⟩ := isText_iff_exists.mp text
  rw [whole, Utf8.encode_eq] at hs
  obtain ⟨l, hl⟩ := Utf8.exists_encode_of_ascii (by decide) hs
  exact ⟨String.ofList l, by rw [Utf8.encode_ofList, hl]⟩

end FileName

namespace Route

/-- All names on the way are text. -/
def Plain (r : Route) : Prop := ∀ n ∈ r, n.IsText

instance : DecidablePred Plain := fun r => inferInstanceAs (Decidable (∀ n ∈ r, n.IsText))

theorem Plain.append_iff {a x : Route} : Plain (a ++ x) ↔ Plain a ∧ Plain x :=
  List.forall_mem_append

/-- The names, one after the other with slashes between them. -/
def joined (r : Route) : String := "/".intercalate (r.map FileName.text)

theorem joined_append {a x : Route} (ha : a ≠ []) (hx : x ≠ []) :
    (joined (a ++ x)).toList = (joined a).toList ++ '/' :: (joined x).toList := by
  rw [joined, List.map_append, String.intercalate_append_of_ne_nil (by simpa) (by simpa)]
  simp [joined]

/-- The names as they are shown, one by one. -/
def texts (r : Route) : List String := r.map FileName.text

@[simp]
theorem texts_append (a x : Route) : texts (a ++ x) = texts a ++ texts x := List.map_append

@[simp]
theorem texts_singleton (n : FileName) : texts [n] = [n.text] := rfl

theorem splitOn_joined {r : Route} (hr : r ≠ []) : (joined r).toList.splitOn '/' = (texts r).map String.toList := by
  rw [joined, String.toList_intercalate]
  apply List.splitOn_intercalate
  · intro l hl
    obtain ⟨s, hs, rfl⟩ := List.mem_map.mp hl
    obtain ⟨n, -, rfl⟩ := List.mem_map.mp hs
    exact n.slash_notMem_text
  · simpa

theorem map_toList_injective {l m : List String} (h : l.map String.toList = m.map String.toList) : l = m :=
  List.map_injective_iff.mpr (fun _ _ => String.toList_inj.mp) h

theorem texts_injective {r s : Route} (hr : Plain r) (hs : Plain s) (h : texts r = texts s) : r = s := by
  induction r generalizing s with
  | nil => exact (List.map_eq_nil_iff.mp h.symm).symm
  | cons n r ih =>
    cases s with
    | nil => cases h
    | cons m s =>
      obtain ⟨first, rest⟩ := List.cons.inj h
      have ⟨hn, hr⟩ := List.forall_mem_cons.mp hr
      have ⟨hm, hs⟩ := List.forall_mem_cons.mp hs
      rw [FileName.text_injective hn hm first, ih hr hs rest]

theorem joined_eq_iff {r s : Route} (hr : r ≠ []) (hs : s ≠ []) : joined r = joined s ↔ texts r = texts s := by
  constructor
  · intro h
    apply map_toList_injective
    rw [← splitOn_joined hr, ← splitOn_joined hs, h]
  · intro h
    rw [joined, joined]
    exact congrArg _ h

theorem joined_injective {r s : Route} (hr : r ≠ []) (hs : s ≠ []) (plain : Plain r) (plain' : Plain s)
    (h : joined r = joined s) : r = s :=
  texts_injective plain plain' ((joined_eq_iff hr hs).mp h)

theorem joined_ne_empty {r : Route} (hr : r ≠ []) (plain : Plain r) : joined r ≠ "" := by
  intro h
  have split := splitOn_joined hr
  rw [h] at split
  obtain ⟨n, rest, rfl⟩ := List.exists_cons_of_ne_nil hr
  have first : [] = n.text.toList := (List.cons.inj split).1
  exact FileName.text_ne_empty (plain n List.mem_cons_self) (String.toList_inj.mp first.symm)

theorem joined_prefix_joined {a r : Route} (ha : a ≠ []) (hr : r ≠ []) (plain : Plain a)
    (plain' : Plain r) :
    (joined a).toList ++ ['/'] <+: (joined r).toList ↔ ∃ x, x ≠ [] ∧ r = a ++ x := by
  constructor
  · rintro ⟨more, h⟩
    rw [List.append_assoc, List.singleton_append] at h
    have split := splitOn_joined hr
    rw [← h, List.splitOn_append_cons_self, splitOn_joined ha] at split
    obtain ⟨first, rest, whole, same, others⟩ := List.map_eq_append_iff.mp split.symm
    obtain ⟨b, x, rfl, hb, hx⟩ := List.map_eq_append_iff.mp whole
    obtain ⟨plainB, plainX⟩ := Plain.append_iff.mp plain'
    have same : texts b = texts a := hb.trans (map_toList_injective same)
    refine ⟨x, ?_, by rw [texts_injective plainB plain same]⟩
    rintro rfl
    cases hx
    exact List.splitOn_ne_nil _ _ others.symm
  · rintro ⟨x, hx, rfl⟩
    rw [joined_append ha hx]
    exact ⟨(joined x).toList, by simp⟩

/-! ## Style sheets -/

/-- The route ends in the name of a style sheet, and nothing on it is `.git`. -/
def IsSheet (r : Route) : Prop := Component.isSheet (r.map .name)

instance : DecidablePred IsSheet := fun _ => inferInstanceAs (Decidable (_ = true))

/-- What the style sheet at the route is called. -/
def logicalName (r : Route) : String := Component.joined (Component.dropExtension (r.map .name))

theorem componentJoined_eq (cs : List Component) : Component.joined cs = joined (cs.filterMap Component.fileName?) := by
  rw [Component.joined, joined, List.map_filterMap]

theorem componentJoined_map (r : Route) : Component.joined (r.map .name) = joined r := by
  simp [Component.joined, joined, List.filterMap_map, Component.fileName?]

theorem isSheet_concat {d : Route} {n : FileName} : IsSheet (d ++ [n]) ↔ n.isSheet ∧ .git ∉ d ++ [n] := by
  have contains : (∃ m ∈ d ++ [n], Component.name m = .name .git) ↔ FileName.git ∈ d ++ [n] := by
    simp
  simp only [IsSheet, Component.isSheet, List.map_append, List.map_cons, List.map_nil,
    List.getLast?_concat, Bool.and_eq_true, Bool.not_eq_true']
  rw [← contains, ← List.map_singleton, ← List.map_append]
  simp

theorem IsSheet.exists_concat {r : Route} (h : IsSheet r) : ∃ d n, r = d ++ [n] ∧ n.isSheet := by
  cases r using List.reverseRec with
  | nil => cases h
  | append_singleton d n => exact ⟨d, n, rfl, (isSheet_concat.mp h).1⟩

theorem IsSheet.git_notMem {r : Route} (h : IsSheet r) : .git ∉ r := by
  obtain ⟨d, n, rfl, -⟩ := h.exists_concat
  exact (isSheet_concat.mp h).2

/-- The last name is text as it is. -/
theorem IsSheet.plain {r : Route} (h : IsSheet r) (text : Plain r.dropLast) : Plain r := by
  obtain ⟨d, n, rfl, sheet⟩ := h.exists_concat
  rw [List.dropLast_concat] at text
  exact Plain.append_iff.mpr ⟨text, List.forall_mem_singleton.mpr (FileName.isText_of_isSheet sheet)⟩

theorem mem_filterMap_fileName {cs : List Component} {n : FileName} :
    n ∈ cs.filterMap Component.fileName? ↔ .name n ∈ cs := by
  rw [List.mem_filterMap]
  constructor
  · rintro ⟨c, hc, same⟩
    cases c with
    | root | here | parent => cases same
    | name m =>
      obtain rfl := Option.some.inj same
      exact hc
  · exact fun h => ⟨_, h, rfl⟩

/-- Whatever else a path has below the root, it is a style sheet and called what it is for the names alone. -/
theorem exists_of_isSheet {cs : List Component} (h : Component.isSheet cs) :
    ∃ r : Route, r.IsSheet ∧ Component.joined (Component.dropExtension cs) = r.logicalName ∧
      Component.joined cs = r.joined := by
  cases cs using List.reverseRec with
  | nil => cases h
  | append_singleton before last =>
    cases last with
    | root | here | parent => simp [Component.isSheet] at h
    | name n =>
      simp only [Component.isSheet, List.getLast?_concat, Bool.and_eq_true, Bool.not_eq_true', Bool.eq_false_iff,
        ne_eq, List.contains_iff_mem] at h
      obtain ⟨sheet, noGit⟩ := h
      have names : (before ++ [Component.name n]).filterMap Component.fileName? =
          before.filterMap Component.fileName? ++ [n] := by
        rw [List.filterMap_append]
        rfl
      refine ⟨before.filterMap Component.fileName? ++ [n], isSheet_concat.mpr ⟨sheet, ?_⟩, ?_, ?_⟩
      · rw [← names, mem_filterMap_fileName]
        exact noGit
      · simp [logicalName, componentJoined_eq, Component.dropExtension, List.filterMap_map, Function.comp_def,
          Component.fileName?]
      · rw [componentJoined_eq, names]

/-- The name of a style sheet is that of the route without the extension. -/
theorem logicalName_concat {d : Route} {n : FileName} (h : n.isSheet) :
    ∃ m : FileName, n.bytes = m.bytes ++ dot :: FileName.sheetExtension ∧ m.IsText ∧
      logicalName (d ++ [n]) = joined (d ++ [m]) := by
  obtain ⟨m, stem, whole, text⟩ := FileName.exists_stem h
  refine ⟨m, whole, text, ?_⟩
  have short : Component.dropExtension ((d ++ [n]).map .name) = (d ++ [m]).map .name := by
    simp [Component.dropExtension, ← stem, Component.ofSegment?_bytes]
  rw [logicalName, short, componentJoined_map]

theorem Plain.concat {d : Route} {n m : FileName} (plain : Plain (d ++ [n])) (h : m.IsText) :
    Plain (d ++ [m]) :=
  Plain.append_iff.mpr ⟨(Plain.append_iff.mp plain).1, List.forall_mem_singleton.mpr h⟩

/-- A style sheet's own name tells it from its neighbours, as that is text. -/
theorem text_eq_iff_of_stems {n m n' m' : FileName} (whole : n.bytes = m.bytes ++ dot :: FileName.sheetExtension)
    (whole' : n'.bytes = m'.bytes ++ dot :: FileName.sheetExtension) (hn : n.IsText) (hn' : n'.IsText)
    (hm : m.IsText) (hm' : m'.IsText) : m.text = m'.text ↔ n.text = n'.text := by
  constructor
  · intro h
    obtain rfl := FileName.text_injective hm hm' h
    rw [FileName.text, FileName.text, whole, whole']
  · intro h
    obtain rfl := FileName.text_injective hn hn' h
    have same : m.bytes = m'.bytes := List.append_cancel_right (whole.symm.trans whole')
    rw [FileName.text, FileName.text, same]

/-- Two style sheets have one name just if the names on their ways are shown alike. -/
theorem logicalName_eq_iff {r s : Route} (hr : IsSheet r) (hs : IsSheet s) :
    logicalName r = logicalName s ↔ texts r = texts s := by
  obtain ⟨d, n, rfl, sheet⟩ := hr.exists_concat
  obtain ⟨d', n', rfl, sheet'⟩ := hs.exists_concat
  obtain ⟨m, whole, text, short⟩ := logicalName_concat (d := d) sheet
  obtain ⟨m', whole', text', short'⟩ := logicalName_concat (d := d') sheet'
  have last := text_eq_iff_of_stems whole whole' (FileName.isText_of_isSheet sheet)
    (FileName.isText_of_isSheet sheet') text text'
  rw [short, short', joined_eq_iff (by simp) (by simp), texts_append, texts_append, texts_append, texts_append,
    texts_singleton, texts_singleton, texts_singleton, texts_singleton, List.append_singleton_inj,
    List.append_singleton_inj, last]

theorem logicalName_injective {r s : Route} (hr : IsSheet r) (hs : IsSheet s) (plain : Plain r)
    (plain' : Plain s) (h : logicalName r = logicalName s) : r = s :=
  texts_injective plain plain' ((logicalName_eq_iff hr hs).mp h)

theorem concat_eq_append_iff {a d : Route} {n : FileName} :
    (∃ x, x ≠ [] ∧ d ++ [n] = a ++ x) ↔ a <+: d := by
  constructor
  · rintro ⟨x, hx, h⟩
    refine ⟨x.dropLast, ?_⟩
    have := congrArg List.dropLast h
    rw [List.dropLast_concat, List.dropLast_append_of_ne_nil hx] at this
    exact this.symm
  · rintro ⟨x, rfl⟩
    exact ⟨x ++ [n], by simp, List.append_assoc _ _ _⟩

/-- The name is one that something in the directory at the route may have. -/
def Holds (a : Route) (n : String) : Prop := (joined a).toList ++ ['/'] <+: n.toList

instance (a : Route) : DecidablePred a.Holds := fun _ => inferInstanceAs (Decidable (_ <+: _))

/-- The style sheets whose names begin with that of a directory are those below it. -/
theorem holds_logicalName {a r : Route} (ha : a ≠ []) (plain : Plain a) (hr : IsSheet r) (plain' : Plain r) :
    a.Holds r.logicalName ↔ ∃ x, x ≠ [] ∧ r = a ++ x := by
  obtain ⟨d, n, rfl, sheet⟩ := hr.exists_concat
  obtain ⟨m, -, text, short⟩ := logicalName_concat (d := d) sheet
  rw [Holds, short, joined_prefix_joined ha (by simp) plain (plain'.concat text), concat_eq_append_iff,
    concat_eq_append_iff]

/-- Whatever the names below a directory are, text or not, those of its style sheets begin with its own. -/
theorem holds_append {a x : Route} (ha : a ≠ []) (hx : x ≠ []) (sheet : IsSheet (a ++ x)) :
    a.Holds (logicalName (a ++ x)) := by
  cases x using List.reverseRec with
  | nil => exact absurd rfl hx
  | append_singleton d n =>
    rw [← List.append_assoc] at sheet ⊢
    obtain ⟨m, -, -, short⟩ := logicalName_concat (d := a ++ d) (isSheet_concat.mp sheet).1
    rw [Holds, short, List.append_assoc, joined_append ha (by simp)]
    exact ⟨_, List.append_assoc _ _ _⟩

/-- No name lies in two directories of which neither lies in the other. -/
theorem prefix_or_prefix_of_holds {a b : Route} (ha : a ≠ []) (hb : b ≠ []) (plain : Plain a)
    (plain' : Plain b) {n : String} (h : a.Holds n) (h' : b.Holds n) : a <+: b ∨ b <+: a := by
  have within {a b : Route} (ha : a ≠ []) (hb : b ≠ []) (plain : Plain a) (plain' : Plain b)
      (hp : (joined a).toList ++ ['/'] <+: (joined b).toList ++ ['/']) : a <+: b := by
    rcases List.prefix_concat_iff.mp hp with same | hp
    · have same : joined a = joined b := String.toList_inj.mp (List.append_cancel_right same)
      exact joined_injective ha hb plain plain' same ▸ List.prefix_rfl
    · obtain ⟨x, -, rfl⟩ := (joined_prefix_joined ha hb plain plain').mp hp
      exact List.prefix_append a x
  rcases List.prefix_or_prefix_of_prefix h h' with hp | hp
  · exact .inl (within ha hb plain plain' hp)
  · exact .inr (within hb ha plain' plain hp)

end Route

namespace Root

/-- The path goes on from the root by the names of the route. -/
def Leads (root : Root) (r : Route) (p : Path) : Prop := p.below? root.path = some (r.map .name)

instance (root : Root) (r : Route) : DecidablePred (root.Leads r) := fun _ =>
  inferInstanceAs (Decidable (_ = _))

/-- Something below the path may have the name; below the root itself every name is. -/
def Holds (root : Root) (p : Path) (n : String) : Prop :=
  ∃ place, root.relativeName p = .ok place ∧ (place = "" ∨ place.toList ++ ['/'] <+: n.toList)

instance (root : Root) (p : Path) : DecidablePred (root.Holds p) := fun n =>
  match h : root.relativeName p with
  | .ok place => decidable_of_iff (place = "" ∨ place.toList ++ ['/'] <+: n.toList) (by simp [Holds, h])
  | .error _ => .isFalse (by simp [Holds, h])

variable {root : Root} {r : Route} {p : Path}

/-- A style sheet is called what some names that lead to it from the root make of it. -/
theorem exists_route_of_isSheet (h : root.isSheet p) :
    ∃ r : Route, r.IsSheet ∧ root.name p = .ok r.logicalName ∧ root.relativeName p = .ok r.joined := by
  obtain ⟨cs, found, sheet⟩ := (Option.any_eq_true _ _).mp h
  obtain ⟨r, isSheet, logical, whole⟩ := Route.exists_of_isSheet sheet
  refine ⟨r, isSheet, ?_, ?_⟩
  · rw [name, below, found, ← logical]
    rfl
  · rw [relativeName, below, found, ← whole]
    rfl

theorem leads_extend (root : Root) (r : Route) : root.Leads r (root.path.extend r) :=
  Path.below?_extend root.path r

namespace Leads

theorem extend (h : root.Leads r p) (x : Route) : root.Leads (r ++ x) (p.extend x) := by
  have whole := List.isPrefixOf?_eq_some_iff_append_eq.mp h
  rw [Leads, Path.below?, List.isPrefixOf?_eq_some_iff_append_eq, Path.components_extend, ← whole, List.map_append,
    List.append_assoc]

variable (h : root.Leads r p)
include h

theorem isSheet_iff : root.isSheet p ↔ r.IsSheet := by
  rw [Root.isSheet, h, Option.any_some, Route.IsSheet]

theorem isSheet : root.isSheet p = decide r.IsSheet := by
  rw [Bool.eq_iff_iff, h.isSheet_iff, decide_eq_true_eq]

theorem name : root.name p = .ok r.logicalName := by
  rw [Root.name, below, h]
  rfl

theorem relativeName : root.relativeName p = .ok r.joined := by
  rw [Root.relativeName, below, h, ← Route.componentJoined_map]
  rfl

theorem holds_iff (plain : r.Plain) {n : String} : root.Holds p n ↔ r = [] ∨ r.Holds n := by
  have shown : r.joined = "" ↔ r = [] := by
    constructor
    · exact fun nothing => by_contra fun hr => Route.joined_ne_empty hr plain nothing
    · rintro rfl
      rfl
  rw [Root.Holds, h.relativeName, ← shown]
  simp [Route.Holds]

end Leads
end Root
end StyleFeed
