import StyleFeed.Stream.Frame

/-!
Frames that were written are read back, however the bytes are cut into chunks and wherever a read is
interrupted: `Frame.readAll_frames`, and `Frame.readAll_append` for frames that something else follows.
-/

namespace StyleFeed

namespace Source

def bytes : Source → Bytes
  | [] => []
  | .data b :: rest => b ++ bytes rest
  | .fails _ :: rest => bytes rest

/-- Reading goes on after every fault of the stream. -/
def Steady (s : Source) : Prop :=
  ∀ fault, .fails fault ∈ s → fault.kind = .interrupted

theorem Steady.tail {i : Item} {s : Source} (h : Steady (i :: s)) : Steady s :=
  fun fault hf => h fault (List.mem_cons_of_mem _ hf)

theorem Steady.drop {b : Bytes} {s : Source} (h : Steady (.data b :: s)) (n : Nat) :
    Steady (.data (b.drop n) :: s) := by
  intro fault hf
  rcases List.mem_cons.mp hf with hf | hf
  · cases hf
  · exact h.tail fault hf

theorem fill_full {need : Nat} {s : Source} (steady : s.Steady) (h : need ≤ s.bytes.length)
    (got : Bytes) : ∃ rest, fill need got s = (.full (got ++ s.bytes.take need), rest) ∧
      rest.bytes = s.bytes.drop need ∧ rest.Steady := by
  fun_induction fill need got s with
  | case1 got => exact ⟨[], by simp [bytes], rfl, steady⟩
  | case2 need got zero =>
    have : need = 0 := Nat.le_zero.mp h
    exact absurd this zero
  | case3 got b rest => exact ⟨_, by simp, rfl, steady⟩
  | case4 need got b rest zero short ih =>
    simp only [bytes, List.length_append] at h
    obtain ⟨last, filled, remaining, steady⟩ := ih steady.tail (by omega)
    refine ⟨last, ?_, ?_, steady⟩
    · rw [filled, bytes, List.take_append, List.take_of_length_le (Nat.le_of_lt short),
        List.append_assoc]
    · rw [remaining, bytes, List.drop_append, List.drop_of_length_le (Nat.le_of_lt short), List.nil_append]
  | case5 need got b rest zero enough =>
    have take : need ≤ b.length := Nat.not_lt.mp enough
    refine ⟨_, ?_, ?_, steady.drop need⟩
    · rw [bytes, List.take_append_of_le_length take]
    · rw [bytes, bytes, List.drop_append_of_le_length take]
  | case6 got fault rest => exact ⟨_, by simp, rfl, steady⟩
  | case7 need got fault rest zero retry ih => exact ih steady.tail h
  | case8 need got fault rest zero fatal => exact absurd (steady fault List.mem_cons_self) fatal

theorem fill_ended {need : Nat} {s : Source} (steady : s.Steady) (h : s.bytes.length < need)
    (got : Bytes) : fill need got s = (.ended (got ++ s.bytes), []) := by
  fun_induction fill need got s with
  | case1 | case3 | case6 => exact absurd h (Nat.not_lt_zero _)
  | case2 need got zero => rw [bytes, List.append_nil]
  | case4 need got b rest zero short ih =>
    simp only [bytes, List.length_append] at h
    rw [ih steady.tail (by omega), bytes, List.append_assoc]
  | case5 need got b rest zero enough =>
    simp only [bytes, List.length_append] at h
    omega
  | case7 need got fault rest zero retry ih => exact ih steady.tail h
  | case8 need got fault rest zero fatal => exact absurd (steady fault List.mem_cons_self) fatal

end Source

namespace Frame

open Source (Steady)

@[simp] theorem length_header (n : Nat) : (header n).length = 4 := rfl

theorem announced_header {n : Nat} (h : n < 0x100000000) : announced (header n) = n := by
  simp only [announced, header, List.foldr_cons, List.foldr_nil, UInt8.toNat_ofNat']
  omega

/-- A frame at the beginning of a stream is read, and the stream goes on after it. -/
theorem read_encode {payload more : Bytes} {s : Source} (steady : s.Steady)
    (short : payload.length < 0x100000000) (h : s.bytes = encode payload ++ more) :
    ∃ rest, read s = (.ok (some payload), rest) ∧ rest.bytes = more ∧ rest.Steady := by
  rw [encode, List.append_assoc] at h
  have enough : 4 ≤ s.bytes.length := by
    rw [h, List.length_append, length_header]
    exact Nat.le_add_right ..
  obtain ⟨afterHeader, filled, remaining, steady⟩ := Source.fill_full steady enough []
  rw [h, List.nil_append, List.take_left' (length_header _)] at filled
  rw [h, List.drop_left' (length_header _)] at remaining
  have whole : payload.length ≤ afterHeader.bytes.length := by
    rw [remaining, List.length_append]
    exact Nat.le_add_right ..
  obtain ⟨rest, filledPayload, remainingPayload, steady⟩ := Source.fill_full steady whole []
  rw [remaining, List.nil_append, List.take_left] at filledPayload
  rw [remaining, List.drop_left] at remainingPayload
  refine ⟨rest, ?_, remainingPayload, steady⟩
  rw [read, filled]
  simp only [announced_header short, filledPayload]

/-- At its end a stream is used up. -/
theorem read_end {s : Source} (steady : s.Steady) (h : s.bytes = []) : read s = (.ok none, []) := by
  have ended := Source.fill_ended steady (by rw [h]; decide : s.bytes.length < 4) []
  rw [h] at ended
  simp only [read, ended, List.nil_append]

theorem readAll_of_frame {s rest : Source} {payload : Bytes} (h : read s = (.ok (some payload), rest)) :
    readAll s = (payload :: (readAll rest).1, (readAll rest).2) := by
  rw [readAll]
  split <;> rename_i hr <;> rw [h] at hr <;> cases hr
  rfl

theorem readAll_of_end {s rest : Source} (h : read s = (.ok none, rest)) : readAll s = ([], none) := by
  rw [readAll]
  split <;> rename_i hr <;> rw [h] at hr <;> cases hr

theorem readAll_of_fault {s rest : Source} {fault : IoFault} (h : read s = (.error fault, rest)) :
    readAll s = ([], some fault) := by
  rw [readAll]
  split <;> rename_i hr <;> rw [h] at hr <;> cases hr
  rfl

/-- Reading goes on after frames as it would have begun there. -/
theorem readAll_append {payloads : List Bytes} {rest : Bytes} {s : Source} (steady : s.Steady)
    (short : ∀ p ∈ payloads, p.length < 0x100000000) (h : s.bytes = payloads.flatMap encode ++ rest) :
    ∃ t : Source, t.Steady ∧ t.bytes = rest ∧ readAll s = (payloads ++ (readAll t).1, (readAll t).2) := by
  induction payloads generalizing s with
  | nil => exact ⟨s, steady, h, rfl⟩
  | cons p payloads ih =>
    rw [List.flatMap_cons, List.append_assoc] at h
    obtain ⟨more, first, remaining, steady⟩ := read_encode steady (short p List.mem_cons_self) h
    obtain ⟨t, steady, left, later⟩ := ih steady (fun q hq => short q (List.mem_cons_of_mem _ hq)) remaining
    refine ⟨t, steady, left, ?_⟩
    rw [readAll_of_frame first, later]
    rfl

theorem readAll_frames {payloads : List Bytes} {s : Source} (steady : s.Steady)
    (short : ∀ p ∈ payloads, p.length < 0x100000000) (h : s.bytes = payloads.flatMap encode) :
    readAll s = (payloads, none) := by
  obtain ⟨t, steady, left, whole⟩ := readAll_append steady short (h.trans (List.append_nil _).symm)
  rw [whole, readAll_of_end (read_end steady left), List.append_nil]

end Frame
end StyleFeed
