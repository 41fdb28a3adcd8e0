import Mathlib.Data.List.Basic
import StyleFeed.Proofs.Utf8

/-!
What is shown of bytes that need not be text. A character below U+0080 stands for its own byte and nothing else, so
that it is shown only where that byte is (`mem_of_mem_lossy`), and a text of such characters is shown of its own
bytes alone (`eq_encode_of_lossy`).
-/

namespace StyleFeed.Utf8

/-- A character that is one byte. NUL is not among them, as it stands for any number that is no code point. -/
def IsAscii (c : Char) : Prop := 0 < c.toNat ∧ c.toNat < 0x80

instance : DecidablePred IsAscii := fun _ => inferInstanceAs (Decidable (_ ∧ _))

theorem toNat_of_isAscii_ofNat {n : Nat} (h : IsAscii (Char.ofNat n)) : (Char.ofNat n).toNat = n := by
  by_cases valid : n.isValidChar
  · rw [Char.ofNat, dif_pos valid]
    rfl
  · rw [Char.ofNat, dif_neg valid] at h
    exact absurd h.1 (by decide)

theorem not_isAscii_broken (bytes : Bytes) : ¬ IsAscii (Piece.broken bytes).shown := by
  rw [Piece.shown]
  decide

section
variable {first low high x : UInt8} {ranges : List (UInt8 × UInt8)} {rest more : Bytes}

/-- The first byte that follows is in its range. -/
theorem within_of_run (h : (run ((low, high) :: ranges) rest).1 = x :: more) :
    low.toNat ≤ x.toNat ∧ x.toNat ≤ high.toNat := by
  cases rest with
  | nil => cases h
  | cons y rest =>
    rw [run] at h
    split at h
    · rename_i within
      obtain ⟨rfl, -⟩ := List.cons.inj h
      exact ⟨UInt8.le_iff_toNat_le.mp within.1, UInt8.le_iff_toNat_le.mp within.2⟩
    · cases h

theorem le_codePoint_two {second : UInt8 × UInt8} (full : (run ((low, high) :: [second]) rest).1.length = 2)
    (h : 0 < first.toNat % 0x10 ∨ 0xa0 ≤ low.toNat ∧ high.toNat < 0xc0) :
    0x80 ≤ codePoint first (run ((low, high) :: [second]) rest).1 := by
  obtain ⟨x, y, followers⟩ := List.length_eq_two.mp full
  have within := within_of_run followers
  rw [followers]
  change 0x80 ≤ (first.toNat % 0x10 * 0x40 + x.toNat % 0x40) * 0x40 + y.toNat % 0x40
  omega

theorem le_codePoint_three {second third : UInt8 × UInt8}
    (full : (run ((low, high) :: [second, third]) rest).1.length = 3)
    (h : 0 < first.toNat % 0x08 ∨ 0x90 ≤ low.toNat ∧ high.toNat < 0xc0) :
    0x80 ≤ codePoint first (run ((low, high) :: [second, third]) rest).1 := by
  obtain ⟨x, y, z, followers⟩ := List.length_eq_three.mp full
  have within := within_of_run followers
  rw [followers]
  change 0x80 ≤ ((first.toNat % 0x08 * 0x40 + x.toNat % 0x40) * 0x40 + y.toNat % 0x40) * 0x40 + z.toNat % 0x40
  omega

/-- What begins with a byte from 0x80 on is no character below U+0080, since no form is overlong. -/
theorem le_codePoint (start : 0x80 ≤ first.toNat) (h : following? first = some ranges)
    (full : (run ranges rest).1.length = ranges.length) : 0x80 ≤ codePoint first (run ranges rest).1 := by
  unfold following? at h
  simp only [UInt8.lt_iff_toNat_lt, ← UInt8.toNat_inj, UInt8.reduceToNat] at h
  split at h
  · omega
  split at h
  · cases h
  split at h
  · cases h
    obtain ⟨x, followers⟩ := List.length_eq_one_iff.mp full
    rw [followers]
    change 0x80 ≤ first.toNat % 0x20 * 0x40 + x.toNat % 0x40
    omega
  -- of the forms with two followers, the one with the least first byte bounds the next
  split at h
  · cases h
    exact le_codePoint_two full (.inr (by decide))
  split at h
  · cases h
    exact le_codePoint_two full (.inl (by omega))
  split at h
  · cases h
    exact le_codePoint_two full (.inl (by omega))
  -- and so it is with three
  split at h
  · cases h
    exact le_codePoint_three full (.inr (by decide))
  split at h
  · cases h
    exact le_codePoint_three full (.inl (by omega))
  split at h
  · cases h
    exact le_codePoint_three full (.inl (by omega))
  · cases h

end

/-- The first piece and what comes after it. Where the piece shows a character below U+0080, it is that byte. -/
theorem pieces_cons (first : UInt8) (rest : Bytes) :
    ∃ piece more, pieces (first :: rest) = piece :: pieces more ∧ more <:+ rest ∧
      (IsAscii piece.shown → first.toNat = piece.shown.toNat ∧ more = rest) := by
  rw [pieces]
  cases h : following? first with
  | none => exact ⟨_, rest, rfl, List.suffix_rfl, fun ascii => absurd ascii (not_isAscii_broken _)⟩
  | some ranges =>
    refine ⟨_, (run ranges rest).2, rfl, ⟨_, run_append ranges rest⟩, ?_⟩
    split
    · rename_i full
      intro ascii
      have same : (Piece.char (Char.ofNat (codePoint first (run ranges rest).1))).shown.toNat = _ :=
        toNat_of_isAscii_ofNat ascii
      rw [same]
      have below : codePoint first (run ranges rest).1 < 0x80 := same ▸ ascii.2
      have single : first.toNat < 0x80 := by
        by_contra high
        exact absurd (le_codePoint (Nat.not_lt.mp high) h full) (Nat.not_le_of_lt below)
      obtain rfl : [] = ranges := by
        rw [following?, if_pos (UInt8.lt_iff_toNat_lt.mpr single)] at h
        exact Option.some.inj h
      refine ⟨?_, rfl⟩
      change first.toNat = first.toNat % 0x80
      omega
    · exact fun ascii => absurd ascii (not_isAscii_broken _)

theorem toList_lossy (b : Bytes) : (∃ s, lossy b = s ∧ encode s = b) ∨
    (lossy b).toList = (pieces b).map Piece.shown := by
  unfold lossy
  cases h : decode? b with
  | some s => exact .inl ⟨s, rfl, decode?_eq_some_iff.mp h⟩
  | none => exact .inr (String.toList_ofList ..)

/-- A character below U+0080 is shown only where its byte is. -/
theorem mem_of_mem_lossy {b : Bytes} {c : Char} (ascii : IsAscii c) (h : c ∈ (lossy b).toList) :
    UInt8.ofNat c.toNat ∈ b := by
  rcases toList_lossy b with ⟨s, shown, rfl⟩ | shown
  · rw [shown] at h
    exact List.mem_flatMap.mpr ⟨c, h, by rw [encodeChar_ascii ascii.2]; exact List.mem_singleton_self _⟩
  rw [shown] at h
  clear shown
  induction hn : b.length using Nat.strongRecOn generalizing b with
  | ind n ih =>
    cases b with
    | nil => simp [pieces] at h
    | cons first rest =>
      obtain ⟨piece, more, split, suffix, single⟩ := pieces_cons first rest
      rw [split, List.map_cons, List.mem_cons] at h
      rcases h with rfl | h
      · obtain ⟨same, -⟩ := single ascii
        rw [← same, UInt8.ofNat_toNat]
        exact List.mem_cons_self
      · have shorter := suffix.length_le
        rw [List.length_cons] at hn
        exact List.mem_cons_of_mem _ (suffix.mem (ih more.length (by omega) h rfl))

/-- A text of characters below U+0080 is shown of its own bytes only. -/
theorem eq_encode_of_lossy {b : Bytes} {s : String} (ascii : ∀ c ∈ s.toList, IsAscii c) (h : lossy b = s) :
    b = encode s := by
  rcases toList_lossy b with ⟨s', shown, rfl⟩ | shown
  · rw [← shown, h]
  rw [h] at shown
  rw [encode]
  generalize s.toList = l at ascii shown
  clear h
  induction l generalizing b with
  | nil =>
    cases b with
    | nil => rfl
    | cons first rest =>
      obtain ⟨piece, more, split, -, -⟩ := pieces_cons first rest
      rw [split] at shown
      cases shown
  | cons c l ih =>
    obtain ⟨here, others⟩ := List.forall_mem_cons.mp ascii
    cases b with
    | nil => simp [pieces] at shown
    | cons first rest =>
      obtain ⟨piece, more, split, -, single⟩ := pieces_cons first rest
      rw [split, List.map_cons] at shown
      obtain ⟨rfl, later⟩ := List.cons.inj shown
      obtain ⟨same, rfl⟩ := single here
      rw [List.flatMap_cons, encodeChar_ascii here.2, ← same, UInt8.ofNat_toNat, ← ih others later]
      rfl

end StyleFeed.Utf8
