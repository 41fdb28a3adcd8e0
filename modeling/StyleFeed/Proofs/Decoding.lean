import StyleFeed.Proofs.Transmission

/-!
What reading a stream comes to, whatever its bytes are. Any bytes are frames one after the other and then nothing, or
then a frame that is cut short (`Frame.exists_frames`). They are read as that, in chunks of any size and with
interruptions anywhere: `Frame.read_as_framed`.
-/

namespace StyleFeed
namespace Frame

open Source (Steady)

/-- The bytes are the beginning of a frame: too few for a header, or for the payload that it announces. -/
def CutShort (rest : Bytes) : Prop :=
  rest ≠ [] ∧ (rest.length < 4 ∨ rest.length < 4 + announced (rest.take 4))

/-- What reading them fails with. -/
def cutFault (rest : Bytes) : IoFault := if rest.length < 4 then .ofKind .unexpectedEof else .endedEarly

theorem kind_cutFault (rest : Bytes) : (cutFault rest).kind = .unexpectedEof := by
  unfold cutFault
  split <;> rfl

theorem header_announced {h : Bytes} (four : h.length = 4) : header (announced h) = h := by
  obtain ⟨a, b, c, d, rfl⟩ : ∃ a b c d, h = [a, b, c, d] := by
    match h, four with
    | [a, b, c, d], _ => exact ⟨a, b, c, d, rfl⟩
  have ha := a.toNat_lt
  have hb := b.toNat_lt
  have hc := c.toNat_lt
  have hd := d.toNat_lt
  simp only [header, announced, List.foldr_cons, List.foldr_nil, List.cons.injEq, and_true,
    ← UInt8.toNat_inj, UInt8.toNat_ofNat']
  omega

theorem announced_lt {h : Bytes} (four : h.length = 4) : announced h < 0x100000000 := by
  rw [announced_eq_ofDigits]
  have bound := Nat.ofDigits_lt_base_pow_length (b := 0x100) (l := h.map UInt8.toNat) (by decide)
    (List.forall_mem_map.mpr fun b _ => b.toNat_lt)
  rwa [List.length_map, four] at bound

theorem read_cut {s : Source} (steady : s.Steady) (cut : CutShort s.bytes) :
    ∃ rest, read s = (.error (cutFault s.bytes), rest) := by
  obtain ⟨nonempty, short⟩ := cut
  rw [cutFault]
  split
  · rename_i few
    refine ⟨[], ?_⟩
    obtain ⟨b, more, hb⟩ := List.exists_cons_of_ne_nil nonempty
    rw [read, Source.fill_ended steady few, List.nil_append, hb]
  · rename_i enough
    obtain ⟨rest, filled, remaining, steady⟩ := Source.fill_full steady (Nat.not_lt.mp enough) []
    have few : rest.bytes.length < announced (s.bytes.take 4) := by
      rw [remaining, List.length_drop]
      omega
    refine ⟨[], ?_⟩
    rw [read, filled, List.nil_append]
    simp only [Source.fill_ended steady few]

/-- Any bytes are a frame and what follows it, unless they end before. -/
theorem exists_encode {b : Bytes} (nonempty : b ≠ []) (whole : ¬ CutShort b) :
    ∃ payload more, payload.length < 0x100000000 ∧ b = encode payload ++ more := by
  have long : 4 ≤ b.length ∧ 4 + announced (b.take 4) ≤ b.length := by
    simp only [CutShort, nonempty, ne_eq, not_false_eq_true, true_and, not_or, Nat.not_lt] at whole
    exact whole
  have four : (b.take 4).length = 4 := List.length_take_of_le long.1
  have length : ((b.drop 4).take (announced (b.take 4))).length = announced (b.take 4) := by
    apply List.length_take_of_le
    rw [List.length_drop]
    omega
  refine ⟨(b.drop 4).take (announced (b.take 4)), (b.drop 4).drop (announced (b.take 4)), ?_, ?_⟩
  · rw [length]
    exact announced_lt four
  · rw [encode, length, header_announced four, List.append_assoc, List.take_append_drop, List.take_append_drop]

/-- Any bytes are frames one after the other, and then nothing or a frame that is cut short. -/
theorem exists_frames (b : Bytes) : ∃ (frames : List Bytes) (rest : Bytes),
    (∀ f ∈ frames, f.length < 0x100000000) ∧ b = frames.flatMap encode ++ rest ∧ (rest = [] ∨ CutShort rest) := by
  by_cases ends : b = [] ∨ CutShort b
  · exact ⟨[], b, List.forall_mem_nil _, rfl, ends⟩
  · obtain ⟨payload, more, short, split⟩ := exists_encode (fun h => ends (.inl h)) fun h => ends (.inr h)
    have shorter : more.length < b.length := by
      rw [split, encode, List.length_append, List.length_append, length_header]
      omega
    obtain ⟨frames, rest, shorts, whole, ends⟩ := exists_frames more
    refine ⟨payload :: frames, rest, List.forall_mem_cons.mpr ⟨short, shorts⟩, ?_, ends⟩
    rw [List.flatMap_cons, List.append_assoc, ← whole, split]
termination_by b.length

/-- How reading ends after frames that these bytes follow. -/
def ending (rest : Bytes) : Option IoFault := if rest = [] then none else some (cutFault rest)

theorem readAll_ending {s : Source} (steady : s.Steady) (ends : s.bytes = [] ∨ CutShort s.bytes) :
    readAll s = ([], ending s.bytes) := by
  rcases ends with nothing | cut
  · rw [readAll_of_end (read_end steady nothing), ending, if_pos nothing]
  · obtain ⟨rest, failed⟩ := read_cut steady cut
    rw [readAll_of_fault failed, ending, if_neg cut.1]

theorem readAll_eq {frames : List Bytes} {rest : Bytes} {s : Source} (steady : s.Steady)
    (shorts : ∀ f ∈ frames, f.length < 0x100000000) (whole : s.bytes = frames.flatMap encode ++ rest)
    (ends : rest = [] ∨ CutShort rest) : readAll s = (frames, ending rest) := by
  obtain ⟨t, steady, rfl, more⟩ := readAll_append steady shorts whole
  rw [more, readAll_ending steady ends, List.append_nil]

/-- What the call to read comes to that ends the reading. -/
def lastRead : Option IoFault → Except IoFault (Option Bytes)
  | none => .ok none
  | some fault => .error fault

/-- The calls to read are made one after the other, up to the one that ends it. -/
theorem reads_readAll (s : Source) :
    reads ((readAll s).1.length + 1) s = (readAll s).1.map (.ok ∘ some) ++ [lastRead (readAll s).2] := by
  induction s using readAll.induct with
  | case1 s payload rest h ih =>
    rw [readAll_of_frame h, List.length_cons, reads, h, ih]
    rfl
  | case2 s rest h =>
    rw [readAll_of_end h, List.length_nil, reads, h]
    rfl
  | case3 s fault rest h =>
    rw [readAll_of_fault h, List.length_nil, reads, h]
    rfl

/-- A stream is read as what its bytes are, however these are cut into chunks and wherever reading them is interrupted.
The end is met just if the bytes are frames and nothing else, and a fault, which is that of an unexpected end, just if a
frame that is cut short comes after the frames. -/
theorem read_as_framed {s : Source} (steady : s.Steady) :
    (∀ t : Source, t.Steady → t.bytes = s.bytes → readAll t = readAll s) ∧
    reads ((readAll s).1.length + 1) s = (readAll s).1.map (.ok ∘ some) ++ [lastRead (readAll s).2] ∧
    (∀ frames, readAll s = (frames, none) ↔
      (∀ f ∈ frames, f.length < 0x100000000) ∧ s.bytes = frames.flatMap encode) ∧
    (∀ frames fault, readAll s = (frames, some fault) ↔
      (∀ f ∈ frames, f.length < 0x100000000) ∧
        ∃ rest, s.bytes = frames.flatMap encode ++ rest ∧ CutShort rest ∧ fault = cutFault rest) ∧
    (∀ fault ∈ (readAll s).2, fault.kind = .unexpectedEof) ∧
    (∀ f : Bytes, f.length < 0x100000000 →
      ∃ h, encode f = h ++ f ∧ h.length = 4 ∧ Nat.ofDigits 0x100 (h.map UInt8.toNat) = f.length) ∧
    ∀ h, announced h = Nat.ofDigits 0x100 (h.map UInt8.toNat) := by
  obtain ⟨frames, rest, shorts, whole, ends⟩ := exists_frames s.bytes
  have result := readAll_eq steady shorts whole ends
  refine ⟨?_, reads_readAll s, ?_, ?_, ?_, ?_, announced_eq_ofDigits⟩
  · intro t steady' same
    rw [result]
    exact readAll_eq steady' shorts (same.trans whole) ends
  · intro frames'
    constructor
    · intro h
      obtain ⟨rfl, ended⟩ := Prod.mk.inj (result.symm.trans h)
      have none : rest = [] := by
        by_contra more
        rw [ending, if_neg more] at ended
        cases ended
      rw [none, List.append_nil] at whole
      exact ⟨shorts, whole⟩
    · rintro ⟨shorts', whole'⟩
      exact readAll_frames steady shorts' whole'
  · intro frames' fault
    constructor
    · intro h
      obtain ⟨rfl, failed⟩ := Prod.mk.inj (result.symm.trans h)
      rw [ending] at failed
      split at failed
      · cases failed
      · rename_i more
        cases failed
        exact ⟨shorts, rest, whole, ends.resolve_left more, rfl⟩
    · rintro ⟨shorts', rest', whole', cut, rfl⟩
      rw [readAll_eq steady shorts' whole' (.inr cut), ending, if_neg cut.1]
  · intro fault mem
    rw [result, Option.mem_def, ending] at mem
    split at mem
    · cases mem
    · cases mem
      exact kind_cutFault rest
  · intro f short
    exact ⟨header f.length, rfl, rfl, ofDigits_header short⟩

/-! A frame with nothing in it, a frame of one byte and one that lacks its last byte, whole and byte by byte. -/
namespace ByteByByte

def frames : List Bytes := [[], [7]]

def cut : Bytes := [2, 0, 0, 0, 9]

def whole : Source := [.data (frames.flatMap encode ++ cut)]

def pieces : Source := whole.bytes.flatMap fun b => [.fails (.ofKind .interrupted), .data [b]]

theorem steady_pieces : pieces.Steady := by
  intro fault mem
  obtain ⟨b, -, mem⟩ := List.mem_flatMap.mp mem
  simp only [List.mem_cons, Source.Item.fails.injEq, reduceCtorEq, List.not_mem_nil, or_false] at mem
  rw [mem]
  rfl

theorem read_alike : pieces.Steady ∧ whole.Steady ∧ readAll pieces = (frames, some .endedEarly) ∧
    readAll whole = readAll pieces ∧ reads 3 pieces = [.ok (some []), .ok (some [7]), .error .endedEarly] := by
  have steady : whole.Steady := by simp [whole, Source.Steady]
  obtain ⟨alike, calls, -, fails, -⟩ := read_as_framed steady_pieces
  have result : readAll pieces = (frames, some .endedEarly) :=
    (fails frames .endedEarly).mpr ⟨by decide, cut, by decide, ⟨by decide, by decide⟩, by decide⟩
  rw [result] at calls
  exact ⟨steady_pieces, steady, result, alike whole steady (by decide), calls⟩

end ByteByByte

end Frame
end StyleFeed
