import StyleFeed.Proofs.RoundTrip

/-!
How long a payload is: `Message.length_payload`. It is counted from the strings of the message, byte by byte, so
that what is said of a long message does not need the message written out.
-/

namespace StyleFeed

open Utf8 (encodeChars)

namespace Json

/-- The number of bytes that some bytes of a string are written with. -/
def escapedLength : Bytes → Nat
  | [] => 0
  | b :: rest => escapedSize b + escapedLength rest

@[simp]
theorem escapedLength_append (bs bs' : Bytes) : escapedLength (bs ++ bs') = escapedLength bs + escapedLength bs' := by
  induction bs with
  | nil => exact (Nat.zero_add _).symm
  | cons b bs ih => rw [List.cons_append, escapedLength, ih, escapedLength, Nat.add_assoc]

theorem escapedLength_of_plain {bs : Bytes} (plain : ∀ b ∈ bs, escapedSize b = 1) : escapedLength bs = bs.length := by
  induction bs with
  | nil => rfl
  | cons b bs ih =>
    obtain ⟨first, rest⟩ := List.forall_mem_cons.mp plain
    rw [escapedLength, first, ih rest, List.length_cons, Nat.add_comm]

theorem escapedLength_replicate (n : Nat) (b : UInt8) :
    escapedLength (List.replicate n b) = n * escapedSize b := by
  induction n with
  | zero => exact (Nat.zero_mul _).symm
  | succ n ih => rw [List.replicate_succ, escapedLength, ih, Nat.succ_mul, Nat.add_comm]

theorem length_escape_ascii : ∀ n < 0x80,
    (encodeChars (escape (Char.ofNat n))).length = escapedSize (UInt8.ofNat n) := by decide

theorem escape_of_le {c : Char} (high : 0x80 ≤ c.toNat) : escape c = [c] := by
  have apart (d : Char) (ascii : d.toNat < 0x80) : c ≠ d := by
    rintro rfl
    exact Nat.not_lt_of_le high ascii
  simp only [escape, apart '"' (by decide), apart '\\' (by decide), apart '\x08' (by decide), apart '\t' (by decide),
    apart '\n' (by decide), apart '\x0c' (by decide), apart '\r' (by decide), if_false]
  exact if_neg (by omega)

theorem escapedSize_of_le {b : UInt8} (high : 0x80 ≤ b) : escapedSize b = 1 := by
  unfold escapedSize
  grind

/-- A character is escaped byte by byte, since only those below U+0080 are escaped at all. -/
theorem length_escape (c : Char) :
    (encodeChars (escape c)).length = escapedLength (String.utf8EncodeChar c) := by
  rcases Nat.lt_or_ge c.toNat 0x80 with ascii | high
  · have size := length_escape_ascii c.toNat ascii
    rw [Char.ofNat_toNat] at size
    rw [Utf8.encodeChar_ascii ascii, size]
    rfl
  · have one : ∀ b ∈ String.utf8EncodeChar c, escapedSize b = 1 :=
      fun b mem => escapedSize_of_le (Utf8.le_of_mem_encodeChar high mem)
    rw [escape_of_le high, escapedLength_of_plain one, Utf8.encodeChars_cons, Utf8.encodeChars_nil, List.append_nil]

theorem escapedSizeTo_eq (b : Bytes) {i : Nat} (within : i ≤ b.length) (n : Nat) :
    escapedSizeTo b.toByteArray i n = escapedLength (b.take i) + n := by
  induction i generalizing n with
  | zero => exact (Nat.zero_add n).symm
  | succ i ih =>
    have last : b.toByteArray.get! i = b[i] := by
      simp [ByteArray.get!, show i < b.length from within]
    rw [escapedSizeTo, ih (Nat.le_of_succ_le within), last, List.take_succ_eq_append_getElem within,
      escapedLength_append, escapedLength, escapedLength]
    omega

theorem quotedSize_eq (s : String) : quotedSize s = escapedLength (Utf8.encode s) + 2 := by
  have size : s.utf8ByteSize = (Utf8.encode s).length := by
    rw [String.utf8ByteSize, ← Utf8.toByteArray_encode, List.size_toByteArray]
  rw [quotedSize, ← Utf8.toByteArray_encode, size, escapedSizeTo_eq _ (Nat.le_refl _), List.take_length]

@[simp]
theorem length_quote (s : String) : (encodeChars (quote s)).length = quotedSize s := by
  have inside (l : List Char) :
      (encodeChars (l.flatMap escape)).length = escapedLength (encodeChars l) := by
    induction l with
    | nil => rfl
    | cons c l ih =>
      rw [List.flatMap_cons, Utf8.encodeChars_append, List.length_append, length_escape, ih, Utf8.encodeChars_cons,
        escapedLength_append]
  have mark : (String.utf8EncodeChar '"').length = 1 := rfl
  rw [quotedSize_eq, Utf8.encode_eq]
  simp only [quote, List.cons_append, Utf8.encodeChars_cons, Utf8.encodeChars_append, List.length_append, inside, mark,
    Utf8.encodeChars_nil, List.length_nil]
  omega

open Value (compactFields) in
theorem length_compactFields (f : String × String) (fs : List (String × String)) :
    (encodeChars (compactFields ((f :: fs).map fun f => (f.1, .text f.2)))).length + 1 =
      fieldsSize (f :: fs) := by
  have colon : (String.utf8EncodeChar ':').length = 1 := rfl
  have comma : (String.utf8EncodeChar ',').length = 1 := rfl
  induction fs generalizing f with
  | nil =>
    simp only [List.map_cons, List.map_nil, compactFields, Value.compact, Utf8.encodeChars_append,
      Utf8.encodeChars_cons, List.length_append, length_quote, colon, fieldsSize]
    omega
  | cons g fs ih =>
    have rest := ih g
    simp only [List.map_cons, compactFields, Value.compact, Utf8.encodeChars_append, Utf8.encodeChars_cons,
      List.length_append, length_quote, colon, comma, fieldsSize] at rest ⊢
    omega

end Json

namespace Message

@[simp]
theorem length_payload (m : Message) : m.payload.length = m.size := by
  have some : ∃ f fs, m.kind.fields.zip m.values = f :: fs := by cases m <;> exact ⟨_, _, rfl⟩
  obtain ⟨f, fs, fields⟩ := some
  have inside := Json.length_compactFields f fs
  have opening : (String.utf8EncodeChar '{').length = 1 := rfl
  have closing : (String.utf8EncodeChar '}').length = 1 := rfl
  have colon : (String.utf8EncodeChar ':').length = 1 := rfl
  rw [payload_eq, size, fields, ← inside]
  simp only [Utf8.encodeChars_cons, Utf8.encodeChars_append, Utf8.encodeChars_nil, List.length_append, List.length_nil,
    Json.length_quote, opening, closing, colon]
  omega

/-- To take a style back never needs more room than to report it. -/
theorem length_deleted_le (name content : String) :
    (deleted name).payload.length ≤ (created name content).payload.length := by
  have label : Json.quotedSize Kind.deleted.label ≤ Json.quotedSize Kind.created.label := by decide +kernel
  simp only [length_payload, size, kind, Kind.fields, values, List.zip_cons_cons, List.zip_nil_right, Json.fieldsSize]
  omega

theorem length_created_le (name content : String) :
    (created name content).payload.length ≤ (modified name content).payload.length := by
  have label : Json.quotedSize Kind.created.label ≤ Json.quotedSize Kind.modified.label := by decide +kernel
  simp only [length_payload, size, kind, Kind.fields, values, List.zip_cons_cons, Json.fieldsSize]
  omega

end Message
end StyleFeed
