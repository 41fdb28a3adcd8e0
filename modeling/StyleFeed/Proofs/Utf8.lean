import Mathlib.Tactic.SplitIfs
import StyleFeed.Text.Utf8

/-!
Writing text as bytes and reading it back: `decode?_eq_some_iff`. Characters below U+0080 are one byte, and
no byte of any other character is below 0x80.
-/

namespace StyleFeed.Utf8

def encodeChars (l : List Char) : Bytes :=
  l.flatMap String.utf8EncodeChar

@[simp] theorem encodeChars_nil : encodeChars [] = [] := rfl

@[simp] theorem encodeChars_cons (c : Char) (l : List Char) :
    encodeChars (c :: l) = String.utf8EncodeChar c ++ encodeChars l :=
  List.flatMap_cons

@[simp] theorem encodeChars_append (l m : List Char) :
    encodeChars (l ++ m) = encodeChars l ++ encodeChars m :=
  List.flatMap_append

theorem encode_ofList (l : List Char) : encode (String.ofList l) = encodeChars l := by
  rw [encode, String.toList_ofList, encodeChars]

theorem encode_eq (s : String) : encode s = encodeChars s.toList := rfl

@[simp]
theorem encode_append (s t : String) : encode (s ++ t) = encode s ++ encode t := by
  rw [encode_eq, String.toList_append, encodeChars_append]
  rfl

@[simp]
theorem toByteArray_encode (s : String) : (encode s).toByteArray = s.toByteArray := by
  rw [show s.toByteArray = s.toList.utf8Encode by simp]
  rfl

@[simp]
theorem decode?_encode (s : String) : decode? (encode s) = some s := by
  unfold decode?
  rw [toByteArray_encode]
  simp [String.fromUTF8?, String.fromUTF8, s.isValidUTF8]

theorem encode_injective {s t : String} (h : encode s = encode t) : s = t := by
  have read := decode?_encode s
  rw [h, decode?_encode] at read
  exact (Option.some.inj read).symm

theorem decode?_eq_some_iff {b : Bytes} {s : String} : decode? b = some s ↔ encode s = b := by
  constructor
  · intro h
    unfold decode? String.fromUTF8? at h
    split at h
    · cases h
      apply List.toByteArray_inj.mp
      rw [toByteArray_encode]
      rfl
    · cases h
  · rintro rfl
    exact decode?_encode s

theorem encodeChar_ascii {c : Char} (h : c.toNat < 0x80) :
    String.utf8EncodeChar c = [UInt8.ofNat c.toNat] := by
  have hc : c.val.toNat ≤ 127 := Nat.le_of_lt_succ h
  simp only [String.utf8EncodeChar, hc, if_true]
  rfl

theorem le_of_mem_encodeChar {c : Char} {b : UInt8} (h : 0x80 ≤ c.toNat)
    (hb : b ∈ String.utf8EncodeChar c) : 0x80 ≤ b := by
  have hc : ¬ c.val.toNat ≤ 127 := Nat.not_le_of_lt h
  have high (n k : Nat) (hk : 0x80 ≤ k) (hn : n + k < 0x100) : (0x80 : UInt8) ≤ UInt8.ofNat (n + k) := by
    rw [UInt8.le_iff_toNat_le]
    simp only [UInt8.toNat_ofNat', UInt8.reduceToNat]
    omega
  simp only [String.utf8EncodeChar, hc, if_false] at hb
  split at hb
  · simp only [List.mem_cons, List.not_mem_nil, or_false] at hb
    rcases hb with rfl | rfl <;> apply high <;> omega
  split at hb
  · simp only [List.mem_cons, List.not_mem_nil, or_false] at hb
    rcases hb with rfl | rfl | rfl <;> apply high <;> omega
  · simp only [List.mem_cons, List.not_mem_nil, or_false] at hb
    rcases hb with rfl | rfl | rfl | rfl <;> apply high <;> omega

/-- A byte below 0x80 stands for its own character and nothing else. -/
theorem mem_of_mem_encode {c : Char} {s : String} (h : c.toNat < 0x80) (hb : UInt8.ofNat c.toNat ∈ encode s) :
    c ∈ s.toList := by
  obtain ⟨d, hd, byte⟩ := List.mem_flatMap.mp hb
  have small : (UInt8.ofNat c.toNat).toNat = c.toNat := by
    rw [UInt8.toNat_ofNat']
    omega
  by_cases ascii : d.toNat < 0x80
  · rw [encodeChar_ascii ascii, List.mem_singleton] at byte
    have same := congrArg UInt8.toNat byte
    rw [small, UInt8.toNat_ofNat', Nat.mod_eq_of_lt (by omega)] at same
    obtain rfl := Char.toNat_inj.mp same
    exact hd
  · have high := UInt8.le_iff_toNat_le.mp (le_of_mem_encodeChar (Nat.not_lt.mp ascii) byte)
    rw [small] at high
    exact absurd h (Nat.not_lt.mpr high)

@[simp]
theorem encodeChar_ne_nil (c : Char) : String.utf8EncodeChar c ≠ [] := by
  intro h
  have := String.length_utf8EncodeChar c
  rw [h] at this
  exact absurd this (Nat.ne_of_lt c.utf8Size_pos)

/-- The bytes of a lesser character are less, whatever follows. -/
theorem encodeChar_append_lt {c d : Char} (h : c < d) (b b' : Bytes) :
    String.utf8EncodeChar c ++ b < String.utf8EncodeChar d ++ b' := by
  have less : c.val.toNat < d.val.toNat := UInt32.lt_iff_toNat_lt.mp (Char.lt_def.mp h)
  have bound : d.val.toNat < 0x110000 := by
    have := d.valid
    simp only [UInt32.isValidChar, Nat.isValidChar] at this
    omega
  simp only [String.utf8EncodeChar]
  generalize c.val.toNat = m at less
  generalize d.val.toNat = n at less bound
  have follower (x : Nat) : (x % 64 + 128) % 2 ^ 8 = x % 64 + 128 := by omega
  have first (x : Nat) (hx : x < 0x110000) : (x / 262144 % 8 + 240) % 2 ^ 8 = x / 262144 + 240 := by omega
  -- a follower holds the remainder of what the one before it holds in part
  have := Nat.div_div_eq_div_mul m 4096 64
  have := Nat.div_div_eq_div_mul n 4096 64
  have := Nat.div_div_eq_div_mul m 64 64
  have := Nat.div_div_eq_div_mul n 64 64
  split_ifs <;>
    simp only [List.cons_append, List.nil_append, List.cons_lt_cons_iff, UInt8.lt_iff_toNat_lt,
      ← UInt8.toNat_inj, UInt8.toNat_ofNat', follower, first m (Nat.lt_trans less bound), first n bound] <;>
    omega

theorem encodeChars_lt {l m : List Char} (h : l < m) : encodeChars l < encodeChars m := by
  induction l generalizing m with
  | nil =>
    cases m with
    | nil => exact absurd h (List.not_lt_nil _)
    | cons d m =>
      rw [encodeChars_cons]
      obtain ⟨b, rest, hd⟩ := List.exists_cons_of_ne_nil (encodeChar_ne_nil d)
      rw [hd]
      exact List.nil_lt_cons _ _
  | cons c l ih =>
    cases m with
    | nil => exact absurd h (List.not_lt_nil _)
    | cons d m =>
      rw [encodeChars_cons, encodeChars_cons]
      rcases List.cons_lt_cons_iff.mp h with less | ⟨rfl, rest⟩
      · exact encodeChar_append_lt less _ _
      · exact List.append_left_lt (ih rest)

/-- Bytes are ordered as the text is. -/
theorem encode_lt {s t : String} (h : s < t) : encode s < encode t :=
  encodeChars_lt (String.lt_iff.mp h)

end StyleFeed.Utf8
