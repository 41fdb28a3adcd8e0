import Mathlib.Data.List.Nodup
import StyleFeed.Toml.Document

/-!
What plain TOML documents are read as. A line that says nothing changes nothing (`Reading.takeAll_filler`), and a line
of a bare key and a word is an entry if the word is a scalar (`Reading.takeAll_entry`). So a document of such lines is
read as its entries if all its words are scalars, and else not at all (`parse_spells`).
-/

namespace StyleFeed.Toml

/-- A line that says nothing. -/
inductive IsFiller : List Char → Prop
  | blank {blanks : List Char} (blank : ∀ c ∈ blanks, c = ' ' ∨ c = '\t') : IsFiller blanks
  | comment {blanks text : List Char} (blank : ∀ c ∈ blanks, c = ' ' ∨ c = '\t')
      (visible : ∀ c ∈ text, c = '\t' ∨ 0x20 ≤ c.toNat ∧ c.toNat ≠ 0x7f) : IsFiller (blanks ++ '#' :: text)

/-- What is left of a text after the end of a line. The text may end there. -/
inductive Ends : List Char → List Char → Prop
  | text : Ends [] []
  | line (rest : List Char) : Ends ('\n' :: rest) rest

/-- What a reader gives. -/
def Read.given {α : Type} {cs : List Char} (x : Read cs α) : α × List Char := (x.value, x.rest)

section
variable {cs tail rest : List Char}

theorem Ends.dropWhile_append (h : Ends tail rest) {p : Char → Bool} (within : ∀ c ∈ cs, p c)
    (without : p '\n' = false) : (cs ++ tail).dropWhile p = tail := by
  rw [List.dropWhile_append_of_pos within]
  cases h with
  | text => rfl
  | line => rw [List.dropWhile_cons_of_neg (Bool.eq_false_iff.mp without)]

theorem Ends.takeWhile_append (h : Ends tail rest) {p : Char → Bool} (within : ∀ c ∈ cs, p c)
    (without : p '\n' = false) : (cs ++ tail).takeWhile p = cs := by
  rw [List.takeWhile_append_of_pos within]
  cases h with
  | text => exact List.append_nil cs
  | line => rw [List.takeWhile_cons_of_neg (Bool.eq_false_iff.mp without), List.append_nil]

theorem Ends.endLine (h : Ends tail rest) : endLine? tail = some rest := by
  cases h <;> rfl

theorem Ends.joinTime (h : Ends tail rest) (word : List Char) : joinTime word tail = (word, tail) := by
  cases h <;> rfl

theorem isBlank_of_blank {c : Char} (h : c = ' ' ∨ c = '\t') : isBlank c := by
  rcases h with rfl | rfl <;> rfl

theorem isVisible_of_visible {c : Char} (h : c = '\t' ∨ 0x20 ≤ c.toNat ∧ c.toNat ≠ 0x7f) : isVisible c := by
  rcases h with rfl | ⟨above, other⟩
  · rfl
  · have : c ≠ '\x7f' := fun delete => other (delete ▸ rfl)
    have : ' ' ≤ c := above
    simp_all [isVisible]

/-- A filler does not begin with a byte order mark. -/
theorem IsFiller.head?_ne {line : List Char} (filler : IsFiller line) (ends : Ends tail rest) :
    (line ++ tail).head? ≠ some '\ufeff' := by
  have unmarked {blanks more : List Char} (blank : ∀ c ∈ blanks, c = ' ' ∨ c = '\t')
      (h : more.head? ≠ some '\ufeff') : (blanks ++ more).head? ≠ some '\ufeff' := by
    cases blanks with
    | nil => exact h
    | cons c blanks =>
      rintro ⟨⟩
      exact absurd (blank '\ufeff' List.mem_cons_self) (by decide)
  cases filler with
  | blank blank =>
    refine unmarked blank ?_
    cases ends <;> exact nofun
  | comment blank visible =>
    rw [List.append_assoc]
    exact unmarked blank nofun

/-! ## Lines of a bare key and a word -/

variable {key word : List Char}

theorem readKeyPart_bare (more : key ≠ []) (bare : ∀ c ∈ key, isBareKey c) (rest : List Char) :
    (readKeyPart (key ++ ' ' :: rest)).map Read.given = some (String.ofList key, ' ' :: rest) := by
  cases key with
  | nil => exact absurd rfl more
  | cons c key =>
    have first := bare c List.mem_cons_self
    have others : ∀ d ∈ key, isBareKey d := fun d mem => bare d (List.mem_cons_of_mem _ mem)
    have noQuote : c ≠ '"' := by rintro rfl; exact absurd first (by decide)
    have noApostrophe : c ≠ '\'' := by rintro rfl; exact absurd first (by decide)
    have blank : ¬ isBareKey ' ' := by decide
    rw [List.cons_append, readKeyPart, if_neg noQuote, if_neg noApostrophe, if_pos first, Option.map_some, Read.given]
    simp only [List.takeWhile_append_of_pos others, List.takeWhile_cons_of_neg blank, List.append_nil,
      List.dropWhile_append_of_pos others, List.dropWhile_cons_of_neg blank]

theorem skipBlanks_append {p : Char → Bool} (more : cs ≠ []) (within : ∀ c ∈ cs, p c) (space : p ' ' = false)
    (tab : p '\t' = false) (rest : List Char) : skipBlanks (cs ++ rest) = cs ++ rest := by
  cases cs with
  | nil => exact absurd rfl more
  | cons c cs =>
    have first := within c List.mem_cons_self
    have shows : ¬ isBlank c := by
      rw [isBlank, Bool.or_eq_true_iff, beq_iff_eq, beq_iff_eq]
      rintro (rfl | rfl)
      · cases space.symm.trans first
      · cases tab.symm.trans first
    rw [List.cons_append, skipBlanks, List.dropWhile_cons_of_neg shows]

theorem readKey_bare (more : key ≠ []) (bare : ∀ c ∈ key, isBareKey c) (rest : List Char) :
    (readKey (key ++ ' ' :: '=' :: rest)).map Read.given = some (⟨[], String.ofList key⟩, '=' :: rest) := by
  have part := readKeyPart_bare more bare ('=' :: rest)
  rw [← skipBlanks_append more bare (by decide) (by decide)] at part
  obtain ⟨x, read, given⟩ := Option.map_eq_some_iff.mp part
  obtain ⟨value, left⟩ := Prod.ext_iff.mp given
  have equals : skipBlanks x.rest = '=' :: rest := by
    rw [show x.rest = _ from left]
    rfl
  have parts : readParts (key ++ ' ' :: '=' :: rest) = some ([String.ofList key], '=' :: rest) := by
    rw [readParts, read]
    simp only
    split
    · rename_i dot
      cases equals.symm.trans dot
    · rw [equals, show x.value = _ from value]
  unfold readKey
  split
  · rename_i none
    cases parts.symm.trans none
  · rename_i some
    cases parts.symm.trans some
    rfl

theorem readScalar_word (ends : Ends tail rest) (more : word ≠ []) (letters : ∀ c ∈ word, isWord c) :
    (readScalar (word ++ tail)).map Read.given = (Scalar.ofWord? word).map fun s => (.scalar s, tail) := by
  cases word with
  | nil => exact absurd rfl more
  | cons c word =>
    have others : ∀ d ∈ word, isWord d := fun d mem => letters d (List.mem_cons_of_mem _ mem)
    rw [List.cons_append, readScalar, if_pos (letters c List.mem_cons_self)]
    simp only [ends.takeWhile_append others (by decide), ends.dropWhile_append others (by decide), ends.joinTime]
    cases Scalar.ofWord? (c :: word) <;> rfl

theorem readValue_word (ends : Ends tail rest) (more : word ≠ []) (letters : ∀ c ∈ word, isWord c) (depth : Nat) :
    (readValue depth (word ++ tail)).map Read.given = (Scalar.ofWord? word).map fun s => (.scalar s, tail) := by
  cases word with
  | nil => exact absurd rfl more
  | cons c word =>
    have first := letters c List.mem_cons_self
    have other (d : Char) (h : isWord d = false) : c ≠ d := by
      rintro rfl
      cases h.symm.trans first
    rw [← readScalar_word ends more letters, List.cons_append, readValue.eq_def]
    simp only
    rw [if_neg (not_or.mpr ⟨other '"' (by decide), other '\'' (by decide)⟩), if_neg (other '[' (by decide)),
      if_neg (other '{' (by decide))]

theorem readLine_of_key {k : Read cs Key} {r : List Char} (noHeader : cs.head? ≠ some '[')
    (read : readKey cs = some k) (equals : k.rest = '=' :: r) :
    (readLine cs).map Read.given = (readValue depthLimit (skipBlanks r)).bind fun x =>
      (endLine? x.rest).map fun rest => (Line.entry k.value x.value, rest) := by
  rw [readLine.eq_def]
  split
  · exact absurd rfl noHeader
  · exact absurd rfl noHeader
  · rw [read]
    simp only
    split
    · rename_i same
      cases equals.symm.trans same
      cases readValue depthLimit (skipBlanks r) with
      | none => rfl
      | some x =>
        rw [Option.bind_some]
        simp only
        split
        · rename_i line
          rw [line]
          rfl
        · rename_i line
          simp only [line, Option.map_some, Read.given]
    · rename_i other
      exact absurd equals (other r)

/-- The line `key = word`. -/
def entryLine (key word : List Char) : List Char := key ++ ' ' :: '=' :: ' ' :: word

/-- A line of a bare key and a word, which is an entry if the word is a scalar. -/
structure IsEntry (key word : List Char) : Prop where
  named : key ≠ []
  bare : ∀ c ∈ key, isBareKey c
  given : word ≠ []
  letters : ∀ c ∈ word, isWord c

theorem IsEntry.head? (entry : IsEntry key word) (tail : List Char) :
    ∃ c, (entryLine key word ++ tail).head? = some c ∧ isBareKey c := by
  obtain ⟨c, key', rfl⟩ := List.exists_cons_of_ne_nil entry.named
  exact ⟨c, rfl, entry.bare c List.mem_cons_self⟩

theorem readLine_entry (entry : IsEntry key word) (ends : Ends tail rest) :
    (readLine (entryLine key word ++ tail)).map Read.given =
      (Scalar.ofWord? word).map fun s => (.entry ⟨[], String.ofList key⟩ (.scalar s), rest) := by
  have shape : entryLine key word ++ tail = key ++ ' ' :: '=' :: ' ' :: (word ++ tail) := by
    rw [entryLine, List.append_assoc]
    rfl
  have noHeader : (entryLine key word ++ tail).head? ≠ some '[' := by
    obtain ⟨c, first, bare⟩ := entry.head? tail
    rw [first]
    rintro ⟨⟩
    exact absurd bare (by decide)
  have keyed := readKey_bare entry.named entry.bare (' ' :: (word ++ tail))
  rw [← shape] at keyed
  obtain ⟨k, read, given⟩ := Option.map_eq_some_iff.mp keyed
  obtain ⟨name, equals⟩ := Prod.ext_iff.mp given
  have noBlank : skipBlanks (' ' :: (word ++ tail)) = word ++ tail :=
    skipBlanks_append entry.given entry.letters (by decide) (by decide) tail
  have value := readValue_word ends entry.given entry.letters depthLimit
  rw [readLine_of_key noHeader read equals, noBlank, show k.value = _ from name]
  cases read : readValue depthLimit (word ++ tail) with
  | none =>
    rw [read] at value
    rw [Option.map_eq_none_iff.mp value.symm]
    rfl
  | some x =>
    rw [read] at value
    obtain ⟨s, scalar, same⟩ := Option.map_eq_some_iff.mp value.symm
    obtain ⟨item, left⟩ := Prod.ext_iff.mp same
    rw [Option.bind_some, scalar, show x.rest = _ from left.symm, ends.endLine, show x.value = _ from item.symm]
    rfl

/-! ## Documents -/

namespace Reading
variable {d : Reading}

theorem takeAll_nil (nothing : skipBlanks cs = []) : d.takeAll cs = some d := by
  rw [takeAll]
  split
  · rfl
  · rename_i more
    cases nothing.symm.trans more

theorem takeAll_empty {c : Char} {r : List Char} (first : skipBlanks cs = c :: r)
    (empty : c = '\n' ∨ c = '\r' ∨ c = '#') (line : afterLine? (skipComment (c :: r)) = some rest) :
    d.takeAll cs = d.takeAll rest := by
  rw [takeAll]
  split
  · rename_i nothing
    cases first.symm.trans nothing
  · rename_i same
    cases first.symm.trans same
    rw [dif_pos empty]
    split
    · rename_i none
      cases line.symm.trans none
    · rename_i some
      cases line.symm.trans some
      rfl

theorem takeAll_line {left : List Char} (shown : skipBlanks cs = left) {c : Char} (first : left.head? = some c)
    (more : ¬ (c = '\n' ∨ c = '\r' ∨ c = '#')) :
    d.takeAll cs = ((readLine left).map Read.given).bind fun given => (d.take given.1).bind (·.takeAll given.2) := by
  obtain ⟨r, rfl⟩ := List.head?_eq_some_iff.mp first
  rw [takeAll]
  split
  · rename_i nothing
    cases shown.symm.trans nothing
  · rename_i same
    cases shown.symm.trans same
    rw [dif_neg more]
    cases readLine (c :: r) with
    | none => rfl
    | some line =>
      simp only [Option.map_some, Option.bind_some, Read.given]
      cases d.take line.value <;> rfl

theorem takeAll_filler {line : List Char} (filler : IsFiller line) (ends : Ends tail rest) :
    d.takeAll (line ++ tail) = d.takeAll rest := by
  cases filler with
  | blank blank =>
    have left : skipBlanks (line ++ tail) = tail :=
      ends.dropWhile_append (fun c mem => isBlank_of_blank (blank c mem)) (by decide)
    cases ends with
    | text => rw [takeAll_nil left, takeAll_nil rfl]
    | line => exact takeAll_empty left (.inl rfl) rfl
  | @comment blanks text blank visible =>
    have left : skipBlanks (blanks ++ '#' :: text ++ tail) = '#' :: (text ++ tail) := by
      rw [List.append_assoc, skipBlanks,
        List.dropWhile_append_of_pos fun c mem => isBlank_of_blank (blank c mem)]
      rfl
    refine takeAll_empty left (.inr (.inr rfl)) ?_
    rw [skipComment, ends.dropWhile_append (fun c mem => isVisible_of_visible (visible c mem)) (by decide)]
    cases ends <;> rfl

theorem takeAll_entry (entry : IsEntry key word) (ends : Ends tail rest) :
    d.takeAll (entryLine key word ++ tail) = (Scalar.ofWord? word).bind fun s =>
      (d.take (.entry ⟨[], String.ofList key⟩ (.scalar s))).bind (·.takeAll rest) := by
  have shown : skipBlanks (entryLine key word ++ tail) = entryLine key word ++ tail := by
    rw [entryLine, List.append_assoc]
    exact skipBlanks_append entry.named entry.bare (by decide) (by decide) _
  obtain ⟨c, first, bare⟩ := entry.head? tail
  have more : ¬ (c = '\n' ∨ c = '\r' ∨ c = '#') := by
    rintro (rfl | rfl | rfl) <;> exact absurd bare (by decide)
  rw [takeAll_line shown first more, readLine_entry entry ends]
  cases Scalar.ofWord? word <;> rfl

end Reading
end

/-! ## Documents of such lines -/

/-- The lines of a document that is made of fillers and of the entries. -/
inductive Spells : List String → List (String × String) → Prop
  | nil : Spells [] []
  | filler {l : String} {lines : List String} {es : List (String × String)} (filler : IsFiller l.toList)
      (more : Spells lines es) : Spells (l :: lines) es
  | entry (key word : String) {lines : List String} {es : List (String × String)} (more : Spells lines es) :
      Spells ((key ++ " = " ++ word) :: lines) ((key, word) :: es)

theorem toList_entry (key word : String) : (key ++ " = " ++ word).toList = entryLine key.toList word.toList := by
  rw [String.toList_append, String.toList_append, entryLine, List.append_assoc]
  rfl

/-- There is an end between every two lines. -/
theorem exists_ends (l : String) (lines : List String) :
    ∃ tail, ("\n".intercalate (l :: lines)).toList = l.toList ++ tail ∧
      Ends tail ("\n".intercalate lines).toList := by
  cases lines with
  | nil => exact ⟨[], by simp, .text⟩
  | cons next lines =>
    refine ⟨_, ?_, .line _⟩
    rw [String.intercalate_cons_cons, String.toList_append, String.toList_append, List.append_assoc]
    rfl

section
variable {lines : List String} {es : List (String × String)}

/-- What an entry makes of what was read before it. -/
def Reading.takeWord (d : Reading) (e : String × String) : Option Reading :=
  (Scalar.ofWord? e.2.toList).bind fun s => d.take (.entry ⟨[], e.1⟩ (.scalar s))

theorem Reading.takeAll_spells (spelt : Spells lines es) (entries : ∀ e ∈ es, IsEntry e.1.toList e.2.toList)
    (d : Reading) : d.takeAll ("\n".intercalate lines).toList = es.foldlM takeWord d := by
  induction spelt generalizing d with
  | nil => exact takeAll_nil rfl
  | @filler l lines es filler more ih =>
    obtain ⟨tail, text, ends⟩ := exists_ends l lines
    rw [text, takeAll_filler filler ends, ih entries]
  | @entry key word lines es more ih =>
    obtain ⟨this, others⟩ := List.forall_mem_cons.mp entries
    obtain ⟨tail, text, ends⟩ := exists_ends (key ++ " = " ++ word) lines
    rw [text, toList_entry, takeAll_entry this ends, List.foldlM_cons, takeWord, String.ofList_toList]
    cases Scalar.ofWord? word.toList with
    | none => rfl
    | some s =>
      simp only [Option.bind_some, ih others]
      rfl

/-- The text does not begin with a byte order mark. -/
theorem Spells.head?_ne (spelt : Spells lines es) (entries : ∀ e ∈ es, IsEntry e.1.toList e.2.toList) :
    ("\n".intercalate lines).toList.head? ≠ some '\ufeff' := by
  cases spelt with
  | nil => simp
  | @filler l lines _ filler more =>
    obtain ⟨tail, text, ends⟩ := exists_ends l lines
    exact text ▸ filler.head?_ne ends
  | @entry key word lines es more =>
    obtain ⟨tail, text, ends⟩ := exists_ends (key ++ " = " ++ word) lines
    obtain ⟨c, head, bare⟩ := (entries _ List.mem_cons_self).head? tail
    rw [text, toList_entry, head]
    rintro ⟨⟩
    exact absurd bare (by decide)

theorem take_entry {entries : Entries} {key : String} (new : key ∉ entries.map Prod.fst) (item : Item) :
    Reading.take ⟨[], entries⟩ (.entry ⟨[], key⟩ item) = some ⟨[], entries ++ [(key, item)]⟩ := by
  have none : entries.lookup key = none := by
    rw [List.lookup_eq_none_iff]
    intro e mem
    rw [bne_iff_ne]
    rintro rfl
    exact new (List.mem_map_of_mem mem)
  simp [Reading.take, Entries.addBelow, Entries.update, Entries.add, none]

/-- The entry of a word. -/
def entryOf? (e : String × String) : Option (String × Item) :=
  (Scalar.ofWord? e.2.toList).map fun s => (e.1, .scalar s)

theorem foldlM_takeWord (done : Entries) (distinct : (done.map Prod.fst ++ es.map Prod.fst).Nodup) :
    es.foldlM Reading.takeWord ⟨[], done⟩ = (es.mapM entryOf?).map fun new => ⟨[], done ++ new⟩ := by
  induction es generalizing done with
  | nil => simp
  | cons e es ih =>
    rw [List.foldlM_cons, List.mapM_cons, Reading.takeWord, entryOf?]
    cases Scalar.ofWord? e.2.toList with
    | none => rfl
    | some s =>
      have new : e.1 ∉ done.map Prod.fst := by
        intro mem
        exact (List.nodup_append.mp distinct).2.2 _ mem _ List.mem_cons_self rfl
      have others : ((done ++ [(e.1, Item.scalar s)]).map Prod.fst ++ es.map Prod.fst).Nodup := by
        simpa using distinct
      rw [Option.bind_some, take_entry new]
      simp only [bind, Option.bind_some, Option.map_some]
      rw [ih _ others]
      cases es.mapM entryOf? with
      | none => rfl
      | some new => simp

/-- Distinct keys are read as what their words are. -/
theorem parse_spells (spelt : Spells lines es) (entries : ∀ e ∈ es, IsEntry e.1.toList e.2.toList)
    (distinct : (es.map Prod.fst).Nodup) : parse ("\n".intercalate lines) = es.mapM entryOf? := by
  have unmarked := spelt.head?_ne entries
  rw [parse]
  split
  · rename_i marked
    exact absurd (congrArg List.head? marked) unmarked
  · rw [Reading.takeAll_spells spelt entries, Reading.start, foldlM_takeWord [] distinct, Option.map_map]
    exact Option.map_id'

end

end StyleFeed.Toml
