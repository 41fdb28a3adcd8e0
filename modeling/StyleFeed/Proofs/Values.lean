import StyleFeed.Proofs.RoundTrip

/-!
A value without numbers is read back from its indented text: `Value.read_indented`. The text is lexed into the lexemes
of the value (`Numberless.lexed`), and these are read as the value, whatever is open around it and whatever follows
(`Numberless.reads`).
-/

namespace StyleFeed.Json

open Utf8 (encodeChars)

namespace Value

/-- There is no number in the value. -/
inductive Numberless : Value → Prop
  | null : Numberless null
  | bool (b : Bool) : Numberless (bool b)
  | text (s : String) : Numberless (text s)
  | list {items : List Value} (all : ∀ v ∈ items, Numberless v) : Numberless (list items)
  | object {fields : List (String × Value)} (all : ∀ f ∈ fields, Numberless f.2) : Numberless (object fields)

mutual
def lexemes : Value → List Lexeme
  | null => [.word .null]
  | bool b => [.word (if b then .true else .false)]
  | number literal => [.number literal]
  | text s => [.ofString s]
  | list items => .beginArray :: itemLexemes items ++ [.endArray]
  | object fields => .beginObject :: fieldLexemes fields ++ [.endObject]

def itemLexemes : List Value → List Lexeme
  | [] => []
  | [v] => lexemes v
  | v :: vs => lexemes v ++ .comma :: itemLexemes vs

def fieldLexemes : List (String × Value) → List Lexeme
  | [] => []
  | [(k, v)] => .ofString k :: .colon :: lexemes v
  | (k, v) :: fs => .ofString k :: .colon :: lexemes v ++ .comma :: fieldLexemes fs
end

/-! ## What an indented text is lexed into -/

theorem lexemes_blank {c : Char} {b : UInt8} (written : String.utf8EncodeChar c = [b])
    (blank : Token.begin b = (.nothing, none)) (text : List Char) :
    Token.lexemes .nothing (encodeChars (c :: text)) = Token.lexemes .nothing (encodeChars text) := by
  rw [Utf8.encodeChars_cons, written, List.singleton_append, Token.lexemes_nothing, blank]
  rfl

theorem lexemes_newLine (level : Nat) (text : List Char) :
    Token.lexemes .nothing (encodeChars (newLine level ++ text)) = Token.lexemes .nothing (encodeChars text) := by
  rw [newLine, List.cons_append, lexemes_blank rfl rfl]
  induction 2 * level with
  | zero => rfl
  | succ n ih => rw [List.replicate_succ, List.cons_append, lexemes_blank rfl rfl, ih]

/-- Whatever follows, the text of the value is lexed into its lexemes. -/
def Lexed (v : Value) : Prop := ∀ level text,
  Token.lexemes .nothing (encodeChars (v.indented level ++ text)) =
    v.lexemes ++ Token.lexemes .nothing (encodeChars text)

theorem lexemes_indentedItems {vs : List Value} (all : ∀ v ∈ vs, v.Lexed) (level : Nat) (text : List Char) :
    Token.lexemes .nothing (encodeChars (indentedItems level vs ++ text)) =
      itemLexemes vs ++ Token.lexemes .nothing (encodeChars text) := by
  induction vs with
  | nil => rfl
  | cons v vs ih =>
    obtain ⟨first, others⟩ := List.forall_mem_cons.mp all
    cases vs with
    | nil => rw [indentedItems, List.append_assoc, lexemes_newLine, first, itemLexemes]
    | cons w vs =>
      simp only [indentedItems, itemLexemes, List.append_assoc, List.cons_append] at ih ⊢
      rw [lexemes_newLine, first, lexemes_punctuation rfl rfl, ih others]

theorem lexemes_indentedFields {fs : List (String × Value)} (all : ∀ f ∈ fs, f.2.Lexed) (level : Nat)
    (text : List Char) : Token.lexemes .nothing (encodeChars (indentedFields level fs ++ text)) =
      fieldLexemes fs ++ Token.lexemes .nothing (encodeChars text) := by
  have space (text : List Char) :
      Token.lexemes .nothing (encodeChars (' ' :: text)) = Token.lexemes .nothing (encodeChars text) :=
    lexemes_blank rfl rfl text
  induction fs with
  | nil => rfl
  | cons f fs ih =>
    obtain ⟨first, others⟩ := List.forall_mem_cons.mp all
    obtain ⟨key, v⟩ := f
    cases fs with
    | nil =>
      simp only [indentedFields, fieldLexemes, List.append_assoc, List.cons_append]
      rw [lexemes_newLine, lexemes_string, lexemes_punctuation rfl rfl, space, first]
    | cons g fs =>
      simp only [indentedFields, fieldLexemes, List.append_assoc, List.cons_append] at ih ⊢
      rw [lexemes_newLine, lexemes_string, lexemes_punctuation rfl rfl, space, first, lexemes_punctuation rfl rfl,
        ih others]

/-- The rest of a word completes it. -/
theorem lexemes_owed (w : Word) {owed : Bytes} (more : owed ≠ []) (rest : Bytes) :
    Token.lexemes (.word w owed) (owed ++ rest) = .word w :: Token.lexemes .nothing rest := by
  induction owed with
  | nil => exact absurd rfl more
  | cons b owed ih =>
    rw [List.cons_append, Token.lexemes_cons]
    cases owed with
    | nil =>
      simp only [Token.step, Token.wordStep, if_pos, Token.map_lexeme]
      rfl
    | cons c owed =>
      simp only [Token.step, Token.wordStep, if_pos, Token.map_lexeme]
      exact ih (List.cons_ne_nil c owed)

theorem lexemes_word {w : Word} {b : UInt8} {chars : List Char} {owed : Bytes} (written : encodeChars chars = b :: owed)
    (begins : Token.begin b = (.word w owed, none)) (more : owed ≠ []) (text : List Char) :
    Token.lexemes .nothing (encodeChars (chars ++ text)) = .word w :: Token.lexemes .nothing (encodeChars text) := by
  rw [Utf8.encodeChars_append, written, List.cons_append, Token.lexemes_nothing, begins]
  exact lexemes_owed w more _

theorem Numberless.lexed {v : Value} (h : v.Numberless) : v.Lexed := by
  intro level text
  induction h generalizing level text with
  | null => exact lexemes_word (b := 0x6e) rfl rfl (List.cons_ne_nil _ _) text
  | bool b =>
    cases b with
    | false => exact lexemes_word (b := 0x66) rfl rfl (List.cons_ne_nil _ _) text
    | true => exact lexemes_word (b := 0x74) rfl rfl (List.cons_ne_nil _ _) text
  | text s => exact lexemes_string s text
  | @list items _ ih =>
    cases items with
    | nil =>
      rw [indented, List.cons_append, lexemes_punctuation rfl rfl, List.cons_append, lexemes_punctuation rfl rfl]
      rfl
    | cons v vs =>
      simp only [indented, lexemes, List.cons_append, List.append_assoc]
      rw [lexemes_punctuation rfl rfl, lexemes_indentedItems ih, lexemes_newLine, lexemes_punctuation rfl rfl]
      rfl
  | @object fields _ ih =>
    cases fields with
    | nil =>
      rw [indented, List.cons_append, lexemes_punctuation rfl rfl, List.cons_append, lexemes_punctuation rfl rfl]
      rfl
    | cons f fs =>
      simp only [indented, lexemes, List.cons_append, List.append_assoc]
      rw [lexemes_punctuation rfl rfl, lexemes_indentedFields ih, lexemes_newLine, lexemes_punctuation rfl rfl]
      rfl

/-! ## How the lexemes are read -/

/-- What is read after a value is complete. -/
def complete (v : Value) (opened : List Open) (ts : List Token) : Except Refusal (Value × List Token) :=
  match place v opened with
  | .inl v => .ok (v, ts)
  | .inr opened => readFrom .more opened ts

section
variable {ts : List Token} {opened outer : List Open}

theorem readFrom_atom {t : Token} {v : Value} (read : atom t = .ok v) :
    readFrom .value opened (t :: ts) = complete v opened ts := by
  have first : readFrom .value opened (t :: ts) = (do complete (← atom t) opened ts) := by
    obtain ⟨l, n⟩ := t
    cases l with
    | beginArray => cases read
    | beginObject => cases read
    | _ => rfl
  rw [first, read]
  rfl

theorem atom_ofString (s : String) (n : Nat) : atom ⟨.ofString s, n⟩ = .ok (.text s) := by
  simp only [atom, Lexeme.ofString, strict?_ofChars]

theorem readFrom_beginArray (n : Nat) :
    readFrom .value opened (⟨.beginArray, n⟩ :: ts) = readFrom .itemOrEnd (.list [] :: opened) ts := rfl

theorem readFrom_beginObject (n : Nat) :
    readFrom .value opened (⟨.beginObject, n⟩ :: ts) = readFrom .keyOrEnd (.object [] "" :: opened) ts := rfl

theorem readFrom_colon (n : Nat) : readFrom .colon opened (⟨.colon, n⟩ :: ts) = readFrom .value opened ts := rfl

section
variable {items : List Value}

theorem readFrom_firstItem {t : Token} (item : t.lexeme ≠ .endArray) :
    readFrom .itemOrEnd (.list items :: outer) (t :: ts) = readFrom .value (.list items :: outer) (t :: ts) := by
  obtain ⟨l, n⟩ := t
  cases l with
  | endArray => exact absurd rfl item
  | _ => rfl

theorem readFrom_noItem (n : Nat) :
    readFrom .itemOrEnd (.list items :: outer) (⟨.endArray, n⟩ :: ts) = complete (.list []) outer ts := rfl

theorem readFrom_nextItem (n : Nat) :
    readFrom .more (.list items :: outer) (⟨.comma, n⟩ :: ts) = readFrom .value (.list items :: outer) ts := rfl

theorem readFrom_endArray (n : Nat) :
    readFrom .more (.list items :: outer) (⟨.endArray, n⟩ :: ts) = complete (.list items.reverse) outer ts := rfl

end

section
variable {fields : List (String × Value)} {key : String}

theorem readFrom_key (s : String) (n : Nat) :
    readFrom .key (.object fields key :: outer) (⟨.ofString s, n⟩ :: ts) =
      readFrom .colon (.object fields s :: outer) ts := by
  change (atom ⟨.ofString s, n⟩ >>= _) = _
  rw [atom_ofString]
  rfl

theorem readFrom_firstKey (s : String) (n : Nat) :
    readFrom .keyOrEnd (.object fields key :: outer) (⟨.ofString s, n⟩ :: ts) =
      readFrom .key (.object fields key :: outer) (⟨.ofString s, n⟩ :: ts) := rfl

theorem readFrom_noField (n : Nat) :
    readFrom .keyOrEnd (.object fields key :: outer) (⟨.endObject, n⟩ :: ts) = complete (.object []) outer ts := rfl

theorem readFrom_nextKey (n : Nat) :
    readFrom .more (.object fields key :: outer) (⟨.comma, n⟩ :: ts) =
      readFrom .key (.object fields key :: outer) ts := rfl

theorem readFrom_endObject (n : Nat) :
    readFrom .more (.object fields key :: outer) (⟨.endObject, n⟩ :: ts) =
      complete (.object fields.reverse) outer ts := rfl

end
end

/-- Wherever a value may come, the lexemes are read as this one. -/
def Reads (v : Value) : Prop := ∀ opened more (ts : List Token), ts.map Token.lexeme = v.lexemes ++ more →
  ∃ rest, rest.map Token.lexeme = more ∧ readFrom .value opened ts = complete v opened rest

theorem reads_items {v : Value} {vs : List Value} (all : ∀ w ∈ v :: vs, w.Reads) (held : List Value)
    (outer : List Open) {more : List Lexeme} {ts : List Token}
    (h : ts.map Token.lexeme = itemLexemes (v :: vs) ++ .endArray :: more) :
    ∃ rest, rest.map Token.lexeme = more ∧
      readFrom .value (.list held :: outer) ts = complete (.list (held.reverse ++ v :: vs)) outer rest := by
  induction vs generalizing v held ts with
  | nil =>
    obtain ⟨after, follows, read⟩ := all v List.mem_cons_self (.list held :: outer) _ ts h
    obtain ⟨⟨_, n⟩, rest, rfl, rfl, left⟩ := List.map_eq_cons_iff.mp follows
    refine ⟨rest, left, ?_⟩
    rw [read, complete, place]
    simp only
    rw [readFrom_endArray, List.reverse_cons]
  | cons w vs ih =>
    obtain ⟨first, others⟩ := List.forall_mem_cons.mp all
    simp only [itemLexemes, List.append_assoc, List.cons_append] at h ih
    obtain ⟨after, follows, read⟩ := first (.list held :: outer) _ ts h
    obtain ⟨⟨_, n⟩, next, rfl, rfl, left⟩ := List.map_eq_cons_iff.mp follows
    obtain ⟨rest, left, readRest⟩ := ih others (v :: held) left
    refine ⟨rest, left, ?_⟩
    rw [read, complete, place]
    simp only
    rw [readFrom_nextItem, readRest, List.reverse_cons, List.append_assoc]
    rfl

/-- The name and the value of a field, wherever a field may come. -/
theorem reads_field {f : String × Value} (reads : f.2.Reads) (held : List (String × Value)) (key : String)
    (outer : List Open) {more : List Lexeme} {ts : List Token}
    (h : ts.map Token.lexeme = .ofString f.1 :: .colon :: (f.2.lexemes ++ more)) :
    ∃ rest, rest.map Token.lexeme = more ∧
      readFrom .key (.object held key :: outer) ts = readFrom .more (.object (f :: held) f.1 :: outer) rest := by
  obtain ⟨⟨_, n⟩, afterKey, rfl, rfl, colon⟩ := List.map_eq_cons_iff.mp h
  obtain ⟨⟨_, k⟩, afterColon, rfl, rfl, value⟩ := List.map_eq_cons_iff.mp colon
  obtain ⟨rest, left, read⟩ := reads (.object held f.1 :: outer) _ afterColon value
  refine ⟨rest, left, ?_⟩
  rw [readFrom_key, readFrom_colon, read]
  rfl

theorem reads_fields {f : String × Value} {fs : List (String × Value)} (all : ∀ g ∈ f :: fs, g.2.Reads)
    (held : List (String × Value)) (key : String) (outer : List Open) {more : List Lexeme} {ts : List Token}
    (h : ts.map Token.lexeme = fieldLexemes (f :: fs) ++ .endObject :: more) :
    ∃ rest, rest.map Token.lexeme = more ∧
      readFrom .key (.object held key :: outer) ts = complete (.object (held.reverse ++ f :: fs)) outer rest := by
  induction fs generalizing f held key ts with
  | nil =>
    obtain ⟨after, follows, read⟩ := reads_field (all f List.mem_cons_self) held key outer h
    obtain ⟨⟨_, n⟩, rest, rfl, rfl, left⟩ := List.map_eq_cons_iff.mp follows
    refine ⟨rest, left, ?_⟩
    rw [read, readFrom_endObject, List.reverse_cons]
  | cons g fs ih =>
    obtain ⟨first, others⟩ := List.forall_mem_cons.mp all
    simp only [fieldLexemes, List.append_assoc, List.cons_append] at h ih
    obtain ⟨after, follows, read⟩ := reads_field first held key outer h
    obtain ⟨⟨_, n⟩, next, rfl, rfl, left⟩ := List.map_eq_cons_iff.mp follows
    obtain ⟨rest, left, readRest⟩ := ih others (f :: held) f.1 left
    refine ⟨rest, left, ?_⟩
    rw [read, readFrom_nextKey, readRest, List.reverse_cons, List.append_assoc]
    rfl

/-- A value does not begin like the end of a list. -/
theorem exists_lexemes (v : Value) : ∃ l more, v.lexemes = l :: more ∧ l ≠ .endArray := by
  cases v <;> exact ⟨_, _, rfl, nofun⟩

theorem exists_itemLexemes (v : Value) (vs : List Value) :
    ∃ l more, itemLexemes (v :: vs) = l :: more ∧ l ≠ .endArray := by
  obtain ⟨l, more, written, other⟩ := v.exists_lexemes
  cases vs with
  | nil => exact ⟨l, more, written, other⟩
  | cons w vs => exact ⟨l, _, congrArg (· ++ .comma :: itemLexemes (w :: vs)) written, other⟩

theorem exists_fieldLexemes (f : String × Value) (fs : List (String × Value)) :
    ∃ more, fieldLexemes (f :: fs) = .ofString f.1 :: more := by
  cases fs <;> exact ⟨_, rfl⟩

theorem Numberless.reads {v : Value} (h : v.Numberless) : v.Reads := by
  intro opened more ts written
  induction h generalizing opened more ts with
  | null =>
    obtain ⟨⟨_, n⟩, rest, rfl, rfl, left⟩ := List.map_eq_cons_iff.mp written
    exact ⟨rest, left, readFrom_atom rfl⟩
  | bool b =>
    obtain ⟨⟨_, n⟩, rest, rfl, rfl, left⟩ := List.map_eq_cons_iff.mp written
    cases b <;> exact ⟨rest, left, readFrom_atom rfl⟩
  | text s =>
    obtain ⟨⟨_, n⟩, rest, rfl, rfl, left⟩ := List.map_eq_cons_iff.mp written
    exact ⟨rest, left, readFrom_atom (atom_ofString s n)⟩
  | @list items _ ih =>
    rw [lexemes, List.append_assoc] at written
    obtain ⟨⟨_, n⟩, inner, rfl, rfl, follows⟩ := List.map_eq_cons_iff.mp written
    rw [readFrom_beginArray]
    cases items with
    | nil =>
      obtain ⟨⟨_, k⟩, rest, rfl, rfl, left⟩ := List.map_eq_cons_iff.mp follows
      exact ⟨rest, left, readFrom_noItem k⟩
    | cons v vs =>
      obtain ⟨rest, left, read⟩ := reads_items ih [] opened follows
      obtain ⟨l, after, begins, other⟩ := exists_itemLexemes v vs
      rw [begins] at follows
      obtain ⟨t, ts, rfl, rfl, -⟩ := List.map_eq_cons_iff.mp follows
      exact ⟨rest, left, (readFrom_firstItem other).trans read⟩
  | @object fields _ ih =>
    rw [lexemes, List.append_assoc] at written
    obtain ⟨⟨_, n⟩, inner, rfl, rfl, follows⟩ := List.map_eq_cons_iff.mp written
    rw [readFrom_beginObject]
    cases fields with
    | nil =>
      obtain ⟨⟨_, k⟩, rest, rfl, rfl, left⟩ := List.map_eq_cons_iff.mp follows
      exact ⟨rest, left, readFrom_noField k⟩
    | cons f fs =>
      obtain ⟨rest, left, read⟩ := reads_fields ih [] "" opened follows
      obtain ⟨after, begins⟩ := exists_fieldLexemes f fs
      rw [begins] at follows
      obtain ⟨⟨_, k⟩, ts, rfl, rfl, -⟩ := List.map_eq_cons_iff.mp follows
      exact ⟨rest, left, (readFrom_firstKey f.1 k).trans read⟩

/-- What was written is read as the value that it was written for. -/
theorem read_indented {v : Value} (h : v.Numberless) (level : Nat) : read (encodeChars (v.indented level)) = .ok v := by
  have scanned : (Token.scan (encodeChars (v.indented level))).map Token.lexeme = v.lexemes ++ [] := by
    rw [Token.scan, Token.map_scanFrom, ← List.append_nil (v.indented level)]
    exact h.lexed level []
  obtain ⟨rest, none, found⟩ := h.reads [] [] _ scanned
  obtain rfl := List.map_eq_nil_iff.mp none
  rw [read, found]
  rfl

end Value
end StyleFeed.Json
