import StyleFeed.Message.Reader
import StyleFeed.Proofs.Lexeme

/-!
A message is read back from its own text: `parse_payload`. The text is followed lexeme by lexeme, so the
reader's part is a list of fields that it takes one by one (`readFields_fieldLexemes`).
-/

namespace StyleFeed

open Utf8 (encodeChars)
open Json (Lexeme Token)
open Json.Token (lexemes)

namespace Json

/-- The lexeme that a quoted text is read as. -/
def Lexeme.ofString (s : String) : Lexeme := .text (s.toList.flatMap Token.ofChar)

theorem lexemes_string (s : String) (text : List Char) :
    lexemes .nothing (encodeChars (quote s ++ text)) =
      .ofString s :: lexemes .nothing (encodeChars text) := by
  rw [Utf8.encodeChars_append, Token.lexemes_quote]
  rfl

theorem lexemes_punctuation {c : Char} {b : UInt8} {l : Lexeme} (hc : String.utf8EncodeChar c = [b])
    (hb : Token.begin b = (.nothing, some l)) (text : List Char) :
    lexemes .nothing (encodeChars (c :: text)) = l :: lexemes .nothing (encodeChars text) := by
  rw [Utf8.encodeChars_cons, hc, List.singleton_append, Token.lexemes_nothing, hb]
  rfl

end Json

namespace Message

/-- The fields of an object as they are written, after others or as the first. -/
def fieldLexemes (first : Bool) : List (String × String) → List Lexeme
  | [] => []
  | (key, value) :: fields =>
    (if first then [] else [.comma]) ++
      .ofString key :: .colon :: .ofString value :: fieldLexemes false fields

theorem lexemes_compactFields (fields : List (String × String)) (text : List Char) :
    lexemes .nothing
        (encodeChars (Json.Value.compactFields (fields.map fun f => (f.1, .text f.2)) ++ text)) =
      fieldLexemes true fields ++ lexemes .nothing (encodeChars text) := by
  induction fields with
  | nil => rfl
  | cons f fields ih =>
    obtain ⟨key, value⟩ := f
    cases fields with
    | nil =>
      simp only [List.map_cons, List.map_nil, Json.Value.compactFields, Json.Value.compact,
        List.append_assoc, List.cons_append]
      rw [Json.lexemes_string, Json.lexemes_punctuation rfl rfl, Json.lexemes_string]
      rfl
    | cons g fields =>
      simp only [List.map_cons, Json.Value.compactFields, Json.Value.compact, List.append_assoc,
        List.cons_append] at ih ⊢
      rw [Json.lexemes_string, Json.lexemes_punctuation rfl rfl, Json.lexemes_string,
        Json.lexemes_punctuation rfl rfl, ih]
      rfl

theorem payload_eq (m : Message) :
    m.payload = encodeChars ('{' :: (Json.quote m.kind.label ++ ':' :: '{' ::
      (Json.Value.compactFields ((m.kind.fields.zip m.values).map fun f => (f.1, .text f.2)) ++
        ['}', '}']))) := by
  have zipped : m.kind.fields.zip (m.values.map Json.Value.text) =
      (m.kind.fields.zip m.values).map fun f => (f.1, .text f.2) := List.zip_map_right ..
  rw [payload, json, Utf8.encode_ofList, toJson, zipped]
  simp [Json.Value.compact, Json.Value.compactFields]

theorem lexemes_payload (m : Message) :
    (Token.scan m.payload).map Token.lexeme =
      .beginObject :: .ofString m.kind.label :: .colon :: .beginObject ::
        (fieldLexemes true (m.kind.fields.zip m.values) ++ [.endObject, .endObject]) := by
  rw [Token.scan, Token.map_scanFrom, payload_eq, Token.State.initial]
  rw [Json.lexemes_punctuation rfl rfl, Json.lexemes_string, Json.lexemes_punctuation rfl rfl,
    Json.lexemes_punctuation rfl rfl, lexemes_compactFields, Json.lexemes_punctuation rfl rfl,
    Json.lexemes_punctuation rfl rfl]
  rfl

/-! ## The reader on written lexemes -/

theorem readText_ofString (s : String) : readText (.ofString s) = .ok s := by
  simp only [readText, Lexeme.ofString, readUnits, Json.strict?_ofChars]

theorem takeText_ofString {ts : List Token} {s : String} {more : List Lexeme}
    (h : ts.map Token.lexeme = .ofString s :: more) :
    ∃ rest, takeText ts = .ok (s, rest) ∧ rest.map Token.lexeme = more := by
  obtain ⟨t, rest, rfl, ht, hr⟩ := List.map_eq_cons_iff.mp h
  refine ⟨rest, ?_, hr⟩
  rw [takeText, ht, readText_ofString]
  rfl

theorem takeKey_ofString {ts : List Token} {s : String} {more : List Lexeme}
    (h : ts.map Token.lexeme = .ofString s :: more) :
    ∃ rest, takeKey ts = .ok (s, rest) ∧ rest.map Token.lexeme = more := by
  obtain ⟨t, rest, rfl, ht, hr⟩ := List.map_eq_cons_iff.mp h
  refine ⟨rest, ?_, hr⟩
  have read := readText_ofString s
  simp only [takeKey, ht, read, Lexeme.ofString] at read ⊢
  rfl

theorem expect_cons {ts : List Token} {l : Lexeme} {more : List Lexeme}
    (h : ts.map Token.lexeme = l :: more) :
    ∃ rest, expect l ts = .ok rest ∧ rest.map Token.lexeme = more := by
  obtain ⟨t, rest, rfl, ht, hr⟩ := List.map_eq_cons_iff.mp h
  exact ⟨rest, by rw [expect, if_pos ht], hr⟩

theorem takeField_ofStrings {names : List String} {held : List (String × String)}
    {key value : String} {ts : List Token} {more : List Lexeme} (known : key ∈ names)
    (fresh : held.lookup key = none)
    (h : ts.map Token.lexeme = .ofString key :: .colon :: .ofString value :: more) :
    ∃ rest, takeField names held ts = .ok (held ++ [(key, value)], rest) ∧
      rest.map Token.lexeme = more := by
  obtain ⟨afterKey, readKey, h⟩ := takeKey_ofString h
  obtain ⟨afterColon, readColon, h⟩ := expect_cons h
  obtain ⟨rest, readValue, h⟩ := takeText_ofString h
  refine ⟨rest, ?_, h⟩
  simp [takeField, readKey, readColon, readValue, known, fresh]

theorem takeSeparator_append {first : Bool} {ts : List Token} {more : List Lexeme}
    (h : ts.map Token.lexeme = (if first then [] else [.comma]) ++ more) :
    ∃ rest, takeSeparator first ts = .ok rest ∧ rest.map Token.lexeme = more := by
  cases first with
  | true => exact ⟨ts, rfl, h⟩
  | false => exact expect_cons h

/-- A field that was taken does not stand in the way of the others. -/
theorem lookup_taken {held fields : List (String × String)} {f : String × String}
    (distinct : ((f :: fields).map Prod.fst).Nodup) (fresh : ∀ g ∈ f :: fields, held.lookup g.1 = none) :
    ∀ g ∈ fields, (held ++ [f]).lookup g.1 = none := by
  intro g hg
  have other : (g.1 == f.1) = false := by
    simp only [beq_eq_false_iff_ne]
    intro same
    exact (List.nodup_cons.mp distinct).1 (same ▸ List.mem_map_of_mem hg)
  rw [List.lookup_append, fresh g (List.mem_cons_of_mem _ hg), List.lookup_cons, other]
  rfl

theorem readFields_fieldLexemes (names : List String) (fields : List (String × String))
    {held : List (String × String)} {first : Bool} {ts : List Token} {more : List Lexeme}
    (known : ∀ f ∈ fields, f.1 ∈ names) (distinct : (fields.map Prod.fst).Nodup)
    (fresh : ∀ f ∈ fields, held.lookup f.1 = none)
    (h : ts.map Token.lexeme = fieldLexemes first fields ++ .endObject :: more) :
    ∃ rest, readFields names first held ts = .ok (held ++ fields, rest) ∧
      rest.map Token.lexeme = more := by
  induction fields generalizing held first ts with
  | nil =>
    obtain ⟨t, rest, rfl, ht, hr⟩ := List.map_eq_cons_iff.mp h
    exact ⟨rest, by rw [readFields, if_pos ht, List.append_nil], hr⟩
  | cons f fields ih =>
    have separated := h
    rw [fieldLexemes, List.append_assoc] at separated
    obtain ⟨after, readSeparator, ha⟩ := takeSeparator_append separated
    obtain ⟨rest, readField, hr⟩ :=
      takeField_ofStrings (known _ List.mem_cons_self) (fresh _ List.mem_cons_self) ha
    obtain ⟨last, readRest, hl⟩ := ih (fun g hg => known g (List.mem_cons_of_mem _ hg))
      (List.nodup_cons.mp distinct).2 (lookup_taken distinct fresh) hr
    refine ⟨last, ?_, hl⟩
    cases ts with
    | nil => cases first <;> cases h
    | cons t ts =>
      have more : t.lexeme ≠ .endObject := by
        cases first <;> (simp [fieldLexemes] at h; simp [h.1, Lexeme.ofString])
      rw [readFields, if_neg more]
      split
      · rename_i e he
        rw [readSeparator] at he
        cases he
      · rename_i after' ha'
        rw [readSeparator] at ha'
        cases ha'
        split
        · rename_i e he
          rw [readField] at he
          cases he
        · rename_i held' rest' hf
          rw [readField] at hf
          cases hf
          rw [readRest, List.append_assoc]
          rfl

theorem Kind.readKind_label (k : Kind) : readKind k.label = .ok k := by
  cases k <;> rfl

theorem nodup_fields (m : Message) : ((m.kind.fields.zip m.values).map Prod.fst).Nodup := by
  cases m <;> simp [kind, Kind.fields, values]

/-- From the fields of a message the message is made again. -/
theorem ofValues?_lookup (m : Message) :
    (m.kind.fields.mapM ((m.kind.fields.zip m.values).lookup ·) >>= ofValues? m.kind) = some m := by
  cases m <;> rfl

theorem readTagged_lexemes (m : Message) {ts : List Token} {more : List Lexeme}
    (h : ts.map Token.lexeme = .ofString m.kind.label :: .colon :: .beginObject ::
      (fieldLexemes true (m.kind.fields.zip m.values) ++ .endObject :: .endObject :: more)) :
    ∃ rest, readTagged ts = .ok (m, rest) ∧ rest.map Token.lexeme = more := by
  have known : ∀ f ∈ m.kind.fields.zip m.values, f.1 ∈ m.kind.fields :=
    fun f hf => (List.of_mem_zip hf).1
  obtain ⟨afterLabel, readLabel, h⟩ := takeText_ofString h
  obtain ⟨body, readColon, h⟩ := expect_cons h
  obtain ⟨t, ts, rfl, ht, h⟩ := List.map_eq_cons_iff.mp h
  obtain ⟨afterBody, readFields, h⟩ :=
    readFields_fieldLexemes m.kind.fields _ known m.nodup_fields (fun _ _ => List.lookup_nil) h
  obtain ⟨rest, readEnd, h⟩ := expect_cons h
  refine ⟨rest, ?_, h⟩
  simp only [readTagged, readLabel, m.kind.readKind_label, readColon, readBody, ht, readFields, readEnd, ok_bind, pure_eq_ok,
    List.nil_append, m.ofValues?_lookup]

/-- What was written is read as the message that it was written for. -/
@[simp]
theorem parse_payload (m : Message) : parse m.payload = .ok m := by
  obtain ⟨t, ts, scanned, ht, h⟩ := List.map_eq_cons_iff.mp (lexemes_payload m)
  obtain ⟨rest, read, none⟩ := readTagged_lexemes m h
  obtain rfl := List.map_eq_nil_iff.mp none
  rw [parse, scanned, ofTokens, ht]
  simp only [read, ok_bind]

end Message
end StyleFeed
