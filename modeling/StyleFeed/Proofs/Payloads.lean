import StyleFeed.Proofs.Beginnings
import StyleFeed.Proofs.RoundTrip

/-!
The payload of a message holds it and nothing else:

* `Message.read_back`: it is text without control characters, and the message is read from it;
* `Message.only_whole`: what is cut from it is reported as cut, wherever that is, and what follows it as malformed, so
  that no payload begins another.

The reader takes a payload lexeme by lexeme. At each one it either meets the end, or takes the lexeme as it is in the
whole payload (`Json.Cut`).
-/

namespace StyleFeed

open Utf8 (encodeChars)
open Json (Cut Lexeme Token TextUnit)
open Json.Token (lexemes)

namespace Json

/-! ## What a quoted text spells before its end -/

theorem lt_of_code_mem_ofChar {c : Char} {n : Nat} (h : TextUnit.code n ∈ Token.ofChar c) : n < 0x20 := by
  unfold Token.ofChar at h
  split at h
  · rename_i control
    cases List.mem_singleton.mp h
    exact control.1
  · simp at h

/-- Without escaped surrogates every text spells something. -/
theorem spellAfter_of_controls {units : List TextUnit} (controls : ∀ n, .code n ∈ units → n < 0x20)
    (written : Bytes) : ∃ b, spellAfter written units = .bytes b := by
  induction units generalizing written with
  | nil => exact ⟨_, rfl⟩
  | cons u units ih =>
    have rest := fun n mem => controls n (List.mem_cons_of_mem _ mem)
    cases u with
    | byte b => exact ih rest _
    | code n =>
      have small := controls n List.mem_cons_self
      have trailing : isTrailing n = false := by simp [isTrailing]; omega
      have leading : isLeading n = false := by simp [isLeading]; omega
      rw [spellAfter.eq_def]
      simp only [trailing, leading, Bool.false_eq_true, if_false]
      exact ih rest _

/-- So does the beginning of a text that was written. -/
theorem spell_ne_unpaired {s : String} {units more : List TextUnit}
    (h : units ++ more = s.toList.flatMap Token.ofChar) : spell units ≠ .unpaired := by
  have controls : ∀ n, .code n ∈ units → n < 0x20 := by
    intro n mem
    have : .code n ∈ s.toList.flatMap Token.ofChar := h ▸ List.mem_append_left _ mem
    obtain ⟨c, -, mem⟩ := List.mem_flatMap.mp this
    exact lt_of_code_mem_ofChar mem
  obtain ⟨b, spelt⟩ := spellAfter_of_controls controls []
  rw [spell, spelt]
  exact nofun

/-! ## Control characters -/

/-- No character is a control character below U+0020. -/
def Printable (l : List Char) : Prop := ∀ c ∈ l, 0x20 ≤ c.toNat

instance : DecidablePred Printable := fun l =>
  decidable_of_iff (l.all fun c => 0x20 ≤ c.toNat) (by simp [Printable])

theorem Printable.cons {c : Char} {l : List Char} (first : 0x20 ≤ c.toNat) (h : Printable l) : Printable (c :: l) :=
  List.forall_mem_cons.mpr ⟨first, h⟩

theorem Printable.append {l l' : List Char} (h : Printable l) (h' : Printable l') : Printable (l ++ l') :=
  List.forall_mem_append.mpr ⟨h, h'⟩

theorem printable_escape (c : Char) : Printable (escape c) := by
  have digit : ∀ n < 0x10, 0x20 ≤ (hexDigit n).toNat := by decide
  unfold escape
  iterate 7
    split
    · decide
  split
  · rename_i control
    have text : Printable ['\\', 'u', '0', '0'] := by decide
    exact text.append (.cons (digit _ (by omega)) (.cons (digit _ (by omega)) nofun))
  · rename_i control
    exact .cons (Nat.not_lt.mp control) nofun

theorem printable_quote (s : String) : Printable (quote s) := by
  have inside : Printable (s.toList.flatMap escape) := by
    intro c mem
    obtain ⟨d, -, mem⟩ := List.mem_flatMap.mp mem
    exact printable_escape d c mem
  exact .cons (by decide) (inside.append (.cons (by decide) nofun))

theorem printable_compactFields (fields : List (String × String)) :
    Printable (Value.compactFields (fields.map fun f => (f.1, .text f.2))) := by
  induction fields with
  | nil => exact nofun
  | cons f fields ih =>
    have field : Printable (quote f.1 ++ ':' :: quote f.2) :=
      (printable_quote f.1).append (.cons (by decide) (printable_quote f.2))
    cases fields with
    | nil => exact field
    | cons g fields =>
      have all := field.append (.cons (by decide : 0x20 ≤ (',').toNat) ih)
      simpa only [List.map_cons, Value.compactFields, Value.compact, List.append_assoc, List.cons_append] using all

end Json

namespace Message

/-! ## The reader on a payload that is cut -/

variable {ts : List Token}

theorem readText_cut {s : String} {units more : List TextUnit}
    (h : units ++ more = s.toList.flatMap Token.ofChar) : readText (.broken (.text units) .cut) = .error .cut := by
  simp only [readText, mismatch, readBroken, if_neg (Json.spell_ne_unpaired h), Refusal.ofFlaw]

/-- A lexeme that is no text is cut before it. -/
theorem eq_nil_of_cut {l : Lexeme} (single : ∀ units, l ≠ .text units) (h : Cut (ts.map Token.lexeme) [l]) :
    ts = [] := by
  generalize hk : ts.map Token.lexeme = ks at h
  cases h with
  | between => exact List.map_eq_nil_iff.mp hk
  | inside => exact absurd rfl (single _)
  | later _ h => exact absurd rfl h.ne_nil

theorem expect_cut {l : Lexeme} (single : ∀ units, l ≠ .text units) (h : Cut (ts.map Token.lexeme) [l]) :
    expect l ts = .error .cut := by
  rw [eq_nil_of_cut single h, expect]

/-- Where a text should stand there is nothing, or the beginning of it. -/
theorem text_cut {s : String} (h : Cut (ts.map Token.lexeme) [.ofString s]) :
    ts = [] ∨ ∃ units, (∃ t, ts = [t] ∧ t.lexeme = .broken (.text units) .cut) ∧
      readText (.broken (.text units) .cut) = .error .cut := by
  generalize hk : ts.map Token.lexeme = ks at h
  generalize hl : Lexeme.ofString s = l at h
  cases h with
  | between => exact .inl (List.map_eq_nil_iff.mp hk)
  | inside units more =>
    obtain ⟨t, rest, rfl, ht, hr⟩ := List.map_eq_cons_iff.mp hk
    obtain rfl := List.map_eq_nil_iff.mp hr
    exact .inr ⟨units, ⟨t, rfl, ht⟩, readText_cut (Lexeme.text.inj hl).symm⟩
  | later _ h => cases h

theorem takeText_cut {s : String} (h : Cut (ts.map Token.lexeme) [.ofString s]) : takeText ts = .error .cut := by
  rcases text_cut h with rfl | ⟨units, ⟨t, rfl, ht⟩, cut⟩
  · rfl
  · rw [takeText, ht, cut]
    rfl

theorem takeKey_cut {s : String} (h : Cut (ts.map Token.lexeme) [.ofString s]) : takeKey ts = .error .cut := by
  rcases text_cut h with rfl | ⟨units, ⟨t, rfl, ht⟩, cut⟩
  · rfl
  · simp only [takeKey, ht, cut]
    rfl

theorem takeField_cut {names : List String} {held : List (String × String)} {key value : String}
    (known : key ∈ names) (fresh : held.lookup key = none)
    (h : Cut (ts.map Token.lexeme) [.ofString key, .colon, .ofString value]) :
    takeField names held ts = .error .cut := by
  rcases Cut.of_append [.ofString key] h with cut | ⟨ks, hk, h⟩
  · simp only [takeField, takeKey_cut cut, error_bind]
  obtain ⟨afterKey, readKey, rfl⟩ := takeKey_ofString hk
  rcases Cut.of_append [.colon] h with cut | ⟨ks, hk, h⟩
  · have stopped := expect_cut (l := .colon) (fun _ => Lexeme.noConfusion) cut
    simp [takeField, readKey, known, fresh, stopped]
  obtain ⟨afterColon, readColon, rfl⟩ := expect_cons hk
  simp [takeField, readKey, readColon, known, fresh, takeText_cut h]

theorem takeSeparator_cut {first : Bool}
    (h : Cut (ts.map Token.lexeme) (if first then [] else [.comma])) : takeSeparator first ts = .error .cut := by
  cases first with
  | true => exact absurd rfl h.ne_nil
  | false => exact expect_cut (l := .comma) (fun _ => Lexeme.noConfusion) h

/-- The fields of an object are cut in a separator, in a field or at the closing bracket. -/
theorem readFields_cut (names : List String) (fields : List (String × String)) {held : List (String × String)}
    {first : Bool} (known : ∀ f ∈ fields, f.1 ∈ names) (distinct : (fields.map Prod.fst).Nodup)
    (fresh : ∀ f ∈ fields, held.lookup f.1 = none)
    (h : Cut (ts.map Token.lexeme) (fieldLexemes first fields ++ [.endObject])) :
    readFields names first held ts = .error .cut := by
  induction fields generalizing held first ts with
  | nil =>
    obtain rfl := eq_nil_of_cut (l := .endObject) (fun _ => Lexeme.noConfusion) h
    rw [readFields]
  | cons f fields ih =>
    cases ts with
    | nil => rw [readFields]
    | cons t ts =>
      have more : t.lexeme ≠ .endObject := by
        intro ended
        cases first <;> rcases Cut.head h with same | ⟨units, broken⟩ <;> simp [ended, Lexeme.ofString] at *
      rw [fieldLexemes, List.append_assoc] at h
      rw [readFields, if_neg more]
      rcases h.of_append _ with cut | ⟨ks, hk, h⟩
      · split <;> rename_i hs <;> rw [takeSeparator_cut cut] at hs <;> cases hs
        rfl
      obtain ⟨after, readSeparator, rfl⟩ := takeSeparator_append hk
      split <;> rename_i hs <;> rw [readSeparator] at hs <;> cases hs
      rcases Cut.of_append [.ofString f.1, .colon, .ofString f.2] h with cut | ⟨ks, hk, h⟩
      · have stopped := takeField_cut (known _ List.mem_cons_self) (fresh _ List.mem_cons_self) cut
        split <;> rename_i hf <;> rw [stopped] at hf <;> cases hf
        rfl
      · obtain ⟨rest, readField, rfl⟩ :=
          takeField_ofStrings (known _ List.mem_cons_self) (fresh _ List.mem_cons_self) hk
        split <;> rename_i hf <;> rw [readField] at hf <;> cases hf
        exact ih (fun g hg => known g (List.mem_cons_of_mem _ hg)) (List.nodup_cons.mp distinct).2
          (lookup_taken distinct fresh) h

theorem readTagged_cut (m : Message) (h : Cut (ts.map Token.lexeme) (.ofString m.kind.label :: .colon :: .beginObject ::
      (fieldLexemes true (m.kind.fields.zip m.values) ++ [.endObject, .endObject]))) :
    readTagged ts = .error .cut := by
  have known : ∀ f ∈ m.kind.fields.zip m.values, f.1 ∈ m.kind.fields :=
    fun f hf => (List.of_mem_zip hf).1
  have kind : readKind m.kind.label = .ok m.kind := m.kind.readKind_label
  rcases Cut.of_append [.ofString m.kind.label] h with cut | ⟨ks, hk, h⟩
  · simp only [readTagged, takeText_cut cut, error_bind]
  obtain ⟨afterLabel, readLabel, rfl⟩ := takeText_ofString hk
  rcases Cut.of_append [.colon] h with cut | ⟨ks, hk, h⟩
  · have stopped := expect_cut (l := .colon) (fun _ => Lexeme.noConfusion) cut
    simp only [readTagged, readLabel, kind, stopped, ok_bind, error_bind]
  obtain ⟨body, readColon, rfl⟩ := expect_cons hk
  rcases Cut.of_append [.beginObject] h with cut | ⟨ks, hk, h⟩
  · obtain rfl := eq_nil_of_cut (l := .beginObject) (fun _ => Lexeme.noConfusion) cut
    simp only [readTagged, readLabel, kind, readColon, readBody, ok_bind, error_bind]
  obtain ⟨t, fields, rfl, ht, rfl⟩ := List.map_eq_cons_iff.mp hk
  have inside : readBody m.kind.fields (t :: fields) = readFields m.kind.fields true [] fields := by
    rw [readBody, ht]
  have h : Cut (fields.map Token.lexeme)
      ((fieldLexemes true (m.kind.fields.zip m.values) ++ [.endObject]) ++ [.endObject]) := by
    rw [List.append_assoc]
    exact h
  rcases h.of_append _ with cut | ⟨ks, hk, h⟩
  · have stopped := readFields_cut m.kind.fields _ known m.nodup_fields (fun _ _ => List.lookup_nil) cut
    simp only [readTagged, readLabel, kind, readColon, inside, stopped, ok_bind, error_bind]
  rw [List.append_assoc] at hk
  obtain ⟨afterBody, readFields, rfl⟩ :=
    readFields_fieldLexemes m.kind.fields _ known m.nodup_fields (fun _ _ => List.lookup_nil) hk
  simp only [readTagged, readLabel, kind, readColon, inside, readFields, List.nil_append, m.ofValues?_lookup,
    expect_cut (l := .endObject) (fun _ => Lexeme.noConfusion) h, ok_bind, error_bind]

/-! ## Payloads that are cut or go on -/

theorem plain_fieldLexemes (first : Bool) (fields : List (String × String)) :
    ∀ l ∈ fieldLexemes first fields, l.Plain := by
  induction fields generalizing first with
  | nil => exact nofun
  | cons f fields ih =>
    have field : ∀ l ∈ Lexeme.ofString f.1 :: .colon :: .ofString f.2 :: fieldLexemes false fields, l.Plain := by
      simp only [List.forall_mem_cons]
      exact ⟨trivial, trivial, trivial, ih false⟩
    cases first with
    | true => exact field
    | false => exact List.forall_mem_cons.mpr ⟨trivial, field⟩

theorem lexemes_scan (text : Bytes) : (Token.scan text).map Token.lexeme = lexemes .nothing text :=
  Token.map_scanFrom _ _

theorem plain_payload (m : Message) : ∀ l ∈ lexemes .nothing m.payload, l.Plain := by
  rw [← lexemes_scan, lexemes_payload]
  have fields := plain_fieldLexemes true (m.kind.fields.zip m.values)
  simp only [List.forall_mem_cons, List.forall_mem_append]
  exact ⟨trivial, trivial, trivial, trivial, fields, trivial, trivial, List.forall_mem_nil _⟩

/-- A payload ends with the closing bracket of the message, so that no end of it is blank. -/
theorem mem_of_payload_eq_append {m : Message} {p q : Bytes} (h : m.payload = p ++ q) (more : q ≠ []) :
    0x7d ∈ q := by
  have bracket : ∃ front, m.payload = encodeChars front ++ [0x7d] := by
    refine ⟨'{' :: (Json.quote m.kind.label ++ ':' :: '{' ::
      (Json.Value.compactFields ((m.kind.fields.zip m.values).map fun f => (f.1, .text f.2)) ++ ['}'])), ?_⟩
    rw [payload_eq, show [(0x7d : UInt8)] = encodeChars ['}'] from rfl, ← Utf8.encodeChars_append]
    simp only [List.cons_append, List.append_assoc, List.nil_append]
  obtain ⟨front, ends⟩ := bracket
  obtain ⟨init, b, rfl⟩ := (List.eq_nil_or_concat q).resolve_left more
  rw [List.concat_eq_append] at h ⊢
  have last := congrArg List.getLast? (ends.symm.trans h)
  rw [List.getLast?_concat, ← List.append_assoc, List.getLast?_concat] at last
  rw [Option.some.inj last]
  exact List.mem_append_right _ (List.mem_singleton_self b)

theorem parse_of_cut {m : Message} {p : Bytes} (h : Cut (lexemes .nothing p) (lexemes .nothing m.payload)) :
    parse p = .error .cut := by
  rw [← lexemes_scan, ← lexemes_scan, lexemes_payload] at h
  rw [parse]
  rcases Cut.of_append [.beginObject] h with cut | ⟨ks, hk, h⟩
  · rw [eq_nil_of_cut (l := .beginObject) (fun _ => Lexeme.noConfusion) cut, ofTokens]
  · obtain ⟨t, ts, scanned, ht, rfl⟩ := List.map_eq_cons_iff.mp hk
    rw [scanned, ofTokens, ht]
    simp only [readTagged_cut m h, error_bind]

/-- After a payload no lexeme may come. -/
theorem parse_append (m : Message) (rest : Bytes) :
    parse (m.payload ++ rest) = if lexemes .nothing rest = [] then .ok m else .error .malformed := by
  have h := lexemes_scan (m.payload ++ rest)
  rw [Token.lexemes_append_of_plain m.plain_payload, ← lexemes_scan m.payload, lexemes_payload] at h
  simp only [List.cons_append, List.append_assoc, List.nil_append] at h
  obtain ⟨t, ts, scanned, ht, h⟩ := List.map_eq_cons_iff.mp h
  obtain ⟨left, read, others⟩ := readTagged_lexemes m h
  rw [parse, scanned, ofTokens, ht]
  simp only [read, ok_bind, ← others]
  cases left <;> rfl

theorem printable_json (m : Message) : Json.Printable m.json.toList := by
  have zipped : m.kind.fields.zip (m.values.map Json.Value.text) =
      (m.kind.fields.zip m.values).map fun f => (f.1, .text f.2) := List.zip_map_right ..
  have fields := Json.printable_compactFields (m.kind.fields.zip m.values)
  have closed := fields.append (by decide : Json.Printable ['}', '}'])
  have all := ((Json.printable_quote m.kind.label).append ((by decide : Json.Printable [':', '{']).append closed)).cons
    (by decide : 0x20 ≤ ('{').toNat)
  rw [json, String.toList_ofList, toJson, zipped]
  simpa only [Json.Value.compact, Json.Value.compactFields, List.append_assoc, List.cons_append, List.nil_append]
    using all

/-- The message is read from what was written for it, which is text and has no control character in it, whatever
characters the message has. -/
theorem read_back (m : Message) :
    parse m.payload = .ok m ∧ Utf8.decode? m.payload = some m.json ∧ ∀ b ∈ m.payload, 0x20 ≤ b := by
  refine ⟨m.parse_payload, Utf8.decode?_encode _, ?_⟩
  intro b mem
  by_cases control : b < 0x20
  · have small : b.toNat < 0x20 := UInt8.lt_iff_toNat_lt.mp control
    have char : (Char.ofNat b.toNat).toNat = b.toNat := by
      rw [Char.ofNat, dif_pos (.inl (by omega))]
      rfl
    have held : Char.ofNat b.toNat ∈ m.json.toList := by
      refine Utf8.mem_of_mem_encode (by omega) ?_
      rw [char, UInt8.ofNat_toNat]
      exact mem
    have := m.printable_json _ held
    omega
  · exact UInt8.not_lt.mp control

/-- Every beginning of a payload but the whole is cut, wherever it ends. After the whole only blanks may come. So no
payload begins another one. -/
theorem only_whole (m : Message) :
    (∀ p, p <+: m.payload → p ≠ m.payload → parse p = .error .cut) ∧
    (∀ rest, (∃ b ∈ rest, ¬ Json.IsBlank b) → parse (m.payload ++ rest) = .error .malformed) ∧
    (∀ rest, (∀ b ∈ rest, Json.IsBlank b) → parse (m.payload ++ rest) = .ok m) ∧
    ∀ n : Message, n ≠ m → ¬ n.payload <+: m.payload := by
  have cut (p : Bytes) (begins : p <+: m.payload) (less : p ≠ m.payload) : parse p = .error .cut := by
    obtain ⟨q, whole⟩ := begins
    have more : q ≠ [] := by
      rintro rfl
      exact less (whole ▸ (List.append_nil p).symm)
    apply parse_of_cut
    rw [← whole]
    refine Token.cut_of_append (whole ▸ m.plain_payload) ⟨0x7d, mem_of_payload_eq_append whole.symm more, ?_⟩
    decide
  refine ⟨cut, ?_, ?_, ?_⟩
  · rintro rest ⟨b, mem, shows⟩
    rw [parse_append, if_neg fun nothing => shows (Token.lexemes_eq_nil_iff.mp nothing b mem)]
  · intro rest blank
    rw [parse_append, if_pos (Token.lexemes_eq_nil_iff.mpr blank)]
  · intro n other begins
    by_cases same : n.payload = m.payload
    · have read := n.parse_payload
      rw [same, parse_payload] at read
      exact other (Except.ok.inj read).symm
    · cases n.parse_payload.symm.trans (cut n.payload begins same)

/-! A message with all that is awkward in a text. It is cut within its escape and within its last character. -/
namespace Awkward

def message : Message := .renamed "\"\\\u0001\u2028" "😀"

theorem awkward_read_back :
    parse message.payload = .ok message ∧ Utf8.decode? message.payload = some message.json ∧
      0x5c ∈ message.payload ∧ 0x20 ≤ (0x5c : UInt8) := by
  obtain ⟨read, text, visible⟩ := message.read_back
  have backslash : 0x5c ∈ message.payload := by decide +kernel
  exact ⟨read, text, backslash, visible _ backslash⟩

theorem awkward_only_whole :
    (∀ n ∈ [31, 53], message.payload.take n <+: message.payload ∧ message.payload.take n ≠ message.payload ∧
      parse (message.payload.take n) = .error .cut) ∧
    parse (message.payload ++ [0x20, 0x7d]) = .error .malformed ∧
    parse (message.payload ++ [0x20, 0x0a]) = .ok message ∧
    .deleted "" ≠ message ∧ ¬ (deleted "").payload <+: message.payload := by
  obtain ⟨cut, followed, blanks, apart⟩ := message.only_whole
  refine ⟨?_, followed _ ⟨0x7d, by decide +kernel⟩, blanks _ (by decide +kernel), nofun, apart _ nofun⟩
  intro n mem
  have begins := List.take_prefix n message.payload
  have less : ∀ n ∈ [31, 53], message.payload.take n ≠ message.payload := by decide +kernel
  exact ⟨begins, less n mem, cut _ begins (less n mem)⟩

end Awkward

end Message
end StyleFeed
