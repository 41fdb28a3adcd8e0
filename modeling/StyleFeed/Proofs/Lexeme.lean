import StyleFeed.Json.Value
import StyleFeed.Proofs.Utf8

/-!
What the lexer makes of written JSON: a quoted text is one lexeme, and what that lexeme spells is what was
written (`lexemes_quote`, `strict?_ofChars`). Offsets are left out, since no reading depends on them.
-/

namespace StyleFeed.Json

open Utf8 (encodeChars)

namespace Token

/-- The lexemes of a text that is met when the machine is inside of something. -/
def lexemes (i : Inside) (text : Bytes) : List Lexeme :=
  (scanFrom ⟨i, 0, 0⟩ text).map Token.lexeme

@[simp]
theorem map_lexeme (l : Option Lexeme) (offset : Nat) :
    (l.map (Token.mk · offset)).toList.map Token.lexeme = l.toList := by
  cases l <;> rfl

theorem step_inside {s t : State} (h : s.inside = t.inside) (b : UInt8) :
    (step s b).1.map Token.lexeme = (step t b).1.map Token.lexeme ∧
      (step s b).2.inside = (step t b).2.inside := by
  obtain ⟨i, n, k⟩ := s
  obtain ⟨j, m, l⟩ := t
  obtain rfl : i = j := h
  cases i with
  | nothing | text | escape | hex | word => exact ⟨by simp only [step, map_lexeme], rfl⟩
  | failed => exact ⟨rfl, rfl⟩
  | number d literal =>
    simp only [step]
    split
    · exact ⟨rfl, rfl⟩
    · split
      · exact ⟨by simp only [List.map_cons, map_lexeme], rfl⟩
      · exact ⟨rfl, rfl⟩

theorem scanFrom_cons (s : State) (b : UInt8) (rest : Bytes) :
    scanFrom s (b :: rest) = (step s b).1 ++ scanFrom (step s b).2 rest := by
  rw [scanFrom]
  split <;> rename_i h <;> simp [h]

theorem map_scanFrom (s : State) (text : Bytes) :
    (scanFrom s text).map Token.lexeme = lexemes s.inside text := by
  have agree (text : Bytes) : ∀ s t : State, s.inside = t.inside →
      (scanFrom s text).map Token.lexeme = (scanFrom t text).map Token.lexeme := by
    induction text with
    | nil =>
      intro s t h
      simp only [scanFrom, finish, h]
      cases t.inside with
      | number d _ => cases d <;> rfl
      | _ => rfl
    | cons b rest ih =>
      intro s t h
      obtain ⟨same, inside⟩ := step_inside h b
      simp only [scanFrom_cons, List.map_append, same, ih _ _ inside]
  exact agree text s ⟨s.inside, 0, 0⟩ rfl

theorem lexemes_cons (i : Inside) (b : UInt8) (rest : Bytes) :
    lexemes i (b :: rest) =
      (step ⟨i, 0, 0⟩ b).1.map Token.lexeme ++ lexemes (step ⟨i, 0, 0⟩ b).2.inside rest := by
  rw [lexemes, scanFrom_cons, List.map_append, map_scanFrom]

theorem lexemes_nothing (b : UInt8) (rest : Bytes) :
    lexemes .nothing (b :: rest) = (begin b).2.toList ++ lexemes (begin b).1 rest := by
  rw [lexemes_cons]
  simp only [step, map_lexeme]

theorem lexemes_text (units : List TextUnit) (b : UInt8) (rest : Bytes) :
    lexemes (.text units) (b :: rest) =
      (textStep units b).2.toList ++ lexemes (textStep units b).1 rest := by
  rw [lexemes_cons]
  simp only [step, map_lexeme]

theorem lexemes_escape (units : List TextUnit) (b : UInt8) (rest : Bytes) :
    lexemes (.escape units) (b :: rest) =
      (escapeStep units b).2.toList ++ lexemes (escapeStep units b).1 rest := by
  rw [lexemes_cons]
  simp only [step, map_lexeme]

theorem lexemes_hex (units : List TextUnit) (digits : Bytes) (b : UInt8) (rest : Bytes) :
    lexemes (.hex units digits) (b :: rest) =
      (hexStep units digits b).2.toList ++ lexemes (hexStep units digits b).1 rest := by
  rw [lexemes_cons]
  simp only [step, map_lexeme]

/-! ## The characters of a text -/

/-- Bytes that stand for themselves. -/
theorem lexemes_plain {bytes : Bytes} (h : ∀ b ∈ bytes, 0x20 ≤ b ∧ b ≠ 0x22 ∧ b ≠ 0x5c)
    (units : List TextUnit) (rest : Bytes) :
    lexemes (.text units) (bytes ++ rest) =
      lexemes (.text ((bytes.map .byte).reverse ++ units)) rest := by
  induction bytes generalizing units with
  | nil => rfl
  | cons b bytes ih =>
    obtain ⟨hb, hq, he⟩ := h b List.mem_cons_self
    rw [List.cons_append, lexemes_text, textStep, if_neg hq, if_neg he, if_neg (UInt8.not_lt.mpr hb),
      ih fun b hb => h b (List.mem_cons_of_mem _ hb)]
    simp

theorem lexemes_escaped {b : UInt8} {u : TextUnit} (h : TextUnit.escaped? b = some u)
    (units : List TextUnit) (rest : Bytes) :
    lexemes (.text units) (0x5c :: b :: rest) = lexemes (.text (u :: units)) rest := by
  have hu : b ≠ 0x75 := by
    rintro rfl
    cases h
  rw [lexemes_text, show textStep units 0x5c = (.escape units, none) from rfl]
  rw [lexemes_escape, escapeStep, if_neg hu, h]
  rfl

theorem lexemes_coded {a b c d : UInt8} {u : TextUnit} (h : TextUnit.ofHex? [a, b, c, d] = some u)
    (units : List TextUnit) (rest : Bytes) :
    lexemes (.text units) (0x5c :: 0x75 :: a :: b :: c :: d :: rest) =
      lexemes (.text (u :: units)) rest := by
  rw [lexemes_text, show textStep units 0x5c = (.escape units, none) from rfl]
  rw [lexemes_escape, show escapeStep units 0x75 = (.hex units [], none) from rfl]
  rw [lexemes_hex, show hexStep units [] a = (.hex units [a], none) from rfl]
  rw [lexemes_hex, show hexStep units [a] b = (.hex units [b, a], none) from rfl]
  rw [lexemes_hex, show hexStep units [b, a] c = (.hex units [c, b, a], none) from rfl]
  rw [lexemes_hex, show hexStep units [c, b, a] d = (.text (u :: units), none) by simp [hexStep, h]]
  rfl

theorem ofHex?_control : ∀ n < 0x20, encodeChars [hexDigit (n / 16), hexDigit (n % 16)] =
      [UInt8.ofNat (hexDigit (n / 16)).toNat, UInt8.ofNat (hexDigit (n % 16)).toNat] ∧
    TextUnit.ofHex? [0x30, 0x30, UInt8.ofNat (hexDigit (n / 16)).toNat,
      UInt8.ofNat (hexDigit (n % 16)).toNat] = some (.code n) := by
  decide

theorem lexemes_control {n : Nat} (h : n < 0x20) (units : List TextUnit) (rest : Bytes) :
    lexemes (.text units)
        (encodeChars ['\\', 'u', '0', '0', hexDigit (n / 16), hexDigit (n % 16)] ++ rest) =
      lexemes (.text (.code n :: units)) rest := by
  obtain ⟨ascii, code⟩ := ofHex?_control n h
  rw [← lexemes_coded code,
    show encodeChars ['\\', 'u', '0', '0', hexDigit (n / 16), hexDigit (n % 16)] =
      0x5c :: 0x75 :: 0x30 :: 0x30 :: encodeChars [hexDigit (n / 16), hexDigit (n % 16)] from rfl, ascii]
  rfl

theorem plain_encodeChar {c : Char} (control : ¬ c.toNat < 0x20) (quote : c ≠ '"')
    (backslash : c ≠ '\\') : ∀ b ∈ String.utf8EncodeChar c, 0x20 ≤ b ∧ b ≠ 0x22 ∧ b ≠ 0x5c := by
  intro b hb
  by_cases hc : c.toNat < 0x80
  · rw [Utf8.encodeChar_ascii hc, List.mem_singleton] at hb
    subst hb
    have value : (UInt8.ofNat c.toNat).toNat = c.toNat := by
      rw [UInt8.toNat_ofNat']
      omega
    refine ⟨?_, ?_, ?_⟩
    · rw [UInt8.le_iff_toNat_le, value]
      exact Nat.not_lt.mp control
    · intro h
      rw [h] at value
      exact quote (Char.toNat_inj.mp value.symm)
    · intro h
      rw [h] at value
      exact backslash (Char.toNat_inj.mp value.symm)
  · have high := Utf8.le_of_mem_encodeChar (Nat.not_lt.mp hc) hb
    rw [UInt8.le_iff_toNat_le] at high
    refine ⟨UInt8.le_iff_toNat_le.mpr (Nat.le_trans (by decide) high), ?_, ?_⟩
    · rintro rfl
      exact absurd high (by decide)
    · rintro rfl
      exact absurd high (by decide)

/-- What the written form of a character is read as: its bytes, or the code unit that stands for it. -/
def ofChar (c : Char) : List TextUnit :=
  if c.toNat < 0x20 ∧ c ∉ ['\x08', '\t', '\n', '\x0c', '\r'] then [.code c.toNat]
  else (String.utf8EncodeChar c).map .byte

theorem lexemes_escape_char (c : Char) (units : List TextUnit) (rest : Bytes) :
    lexemes (.text units) (encodeChars (Json.escape c) ++ rest) =
      lexemes (.text ((ofChar c).reverse ++ units)) rest := by
  unfold Json.escape
  iterate 7
    split
    · subst c
      exact lexemes_escaped (by decide) units rest
  split
  · rw [lexemes_control (by assumption), ofChar, if_pos (by simp [*])]
    rfl
  · rename_i quote backslash _ _ _ _ _ control
    rw [ofChar, if_neg (by simp [control]), Utf8.encodeChars_cons, Utf8.encodeChars_nil,
      List.append_nil]
    exact lexemes_plain (plain_encodeChar control quote backslash) units rest

theorem lexemes_escape_chars (l : List Char) (units : List TextUnit) (rest : Bytes) :
    lexemes (.text units) (encodeChars (l.flatMap Json.escape) ++ rest) =
      lexemes (.text ((l.flatMap ofChar).reverse ++ units)) rest := by
  induction l generalizing units with
  | nil => rfl
  | cons c l ih =>
    rw [List.flatMap_cons, Utf8.encodeChars_append, List.append_assoc, lexemes_escape_char, ih]
    simp

/-- A quoted text is one lexeme, whatever comes after it. -/
theorem lexemes_quote (s : String) (rest : Bytes) :
    lexemes .nothing (encodeChars (quote s) ++ rest) =
      .text (s.toList.flatMap ofChar) :: lexemes .nothing rest := by
  have written : encodeChars (quote s) ++ rest =
      0x22 :: (encodeChars (s.toList.flatMap Json.escape) ++ 0x22 :: rest) := by
    rw [quote, List.cons_append, Utf8.encodeChars_cons, Utf8.encodeChars_append, List.append_assoc,
      List.append_assoc]
    rfl
  rw [written, lexemes_nothing, show begin 0x22 = (.text [], none) from rfl]
  simp only [Option.toList_none, List.nil_append]
  rw [lexemes_escape_chars, lexemes_text]
  simp [textStep]

end Token

/-! ## What is spelt -/

theorem spellAfter_bytes (written bytes : Bytes) (rest : List TextUnit) :
    spellAfter written (bytes.map .byte ++ rest) = spellAfter (bytes.reverse ++ written) rest := by
  induction bytes generalizing written with
  | nil => rfl
  | cons b bytes ih => simp [spellAfter, ih]

theorem spellAfter_ofChar (written : Bytes) (c : Char) (rest : List TextUnit) :
    spellAfter written (Token.ofChar c ++ rest) =
      spellAfter ((String.utf8EncodeChar c).reverse ++ written) rest := by
  unfold Token.ofChar
  split
  · rename_i h
    have control := h.1
    have trailing : isTrailing c.toNat = false := by simp [isTrailing]; omega
    have leading : isLeading c.toNat = false := by simp [isLeading]; omega
    rw [List.singleton_append, spellAfter.eq_def]
    simp [trailing, leading]
  · exact spellAfter_bytes _ _ _

theorem spellAfter_ofChars (l : List Char) (written : Bytes) :
    spellAfter written (l.flatMap Token.ofChar) = .bytes (written.reverse ++ encodeChars l) := by
  induction l generalizing written with
  | nil => simp [spellAfter]
  | cons c l ih => rw [List.flatMap_cons, spellAfter_ofChar, ih]; simp

/-- What was written is what is read. -/
@[simp]
theorem strict?_ofChars (s : String) : Value.strict? (s.toList.flatMap Token.ofChar) = some s := by
  unfold Value.strict? spell
  rw [spellAfter_ofChars]
  exact Utf8.decode?_encode s

end StyleFeed.Json
