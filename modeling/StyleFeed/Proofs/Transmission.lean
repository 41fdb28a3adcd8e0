import Mathlib.Data.Nat.Digits.Defs
import StyleFeed.Proofs.Framing
import StyleFeed.Proofs.RoundTrip
import StyleFeed.Proofs.Sending

/-!
Messages get through: what is sent is read back, however the output takes the bytes and however they arrive, so long
as calls are only interrupted (`messages_get_through`). One frame is read for each message, and after them the end, as
often as one asks.
-/

namespace StyleFeed

open Message (Fits)

namespace Outlet

/-- Sends messages in order, and says what came of each. -/
def sendAll (limit : Nat) : List Message → Outlet → List (Except Fault Unit) × Outlet
  | [], o => ([], o)
  | m :: ms, o =>
    let (result, o) := send limit m o
    let (results, o) := sendAll limit ms o
    (result :: results, o)

variable {limit : Nat} {m : Message} {ms : List Message} {o : Outlet}

/-- Without faults a message that fits goes out whole. -/
theorem send_fitting (fits : m.Fits limit) (faultless : o.Faultless) :
    ∃ o', send limit m o = (.ok (), o') ∧ o'.accepted = o.accepted ++ m.frame ∧ o'.Faultless := by
  obtain ⟨noFault, still⟩ := send_faultless faultless limit m
  rcases send_cases limit m o with ⟨tooLong, -⟩ | ⟨-, o', sent, accepted⟩ | ⟨-, cause, o', taken, failed, -⟩
  · exact absurd fits tooLong
  · rw [sent] at still
    exact ⟨o', sent, accepted, still⟩
  · exact absurd (congrArg Prod.fst failed) (noFault cause)

theorem sendAll_fitting (fits : ∀ m ∈ ms, m.Fits limit) (faultless : o.Faultless) :
    (sendAll limit ms o).1 = List.replicate ms.length (.ok ()) ∧
      (sendAll limit ms o).2.accepted = o.accepted ++ ms.flatMap Message.frame := by
  induction ms generalizing o with
  | nil => exact ⟨rfl, (List.append_nil _).symm⟩
  | cons m ms ih =>
    have ⟨first, others⟩ := List.forall_mem_cons.mp fits
    obtain ⟨o', sent, accepted, still⟩ := send_fitting first faultless
    obtain ⟨results, all⟩ := ih others still
    simp only [sendAll, sent, results, all, accepted, List.flatMap_cons, List.append_assoc]
    exact ⟨rfl, trivial⟩

end Outlet

namespace Frame

/-- What as many calls to read come to, one after the other. -/
def reads : Nat → Source → List (Except IoFault (Option Bytes))
  | 0, _ => []
  | n + 1, s => (read s).1 :: reads n (read s).2

/-- The length is written with the least significant byte first. -/
theorem ofDigits_header {n : Nat} (h : n < 0x100000000) :
    Nat.ofDigits 0x100 ((header n).map UInt8.toNat) = n := by
  simp only [header, List.map_cons, List.map_nil, UInt8.toNat_ofNat', Nat.ofDigits_cons, Nat.ofDigits_nil]
  omega

/-- And so it is read. -/
theorem announced_eq_ofDigits (h : Bytes) : announced h = Nat.ofDigits 0x100 (h.map UInt8.toNat) := by
  induction h with
  | nil => rfl
  | cons b h ih => rw [List.map_cons, Nat.ofDigits_cons, ← ih, announced, announced, List.foldr_cons]

open Source (Steady)

theorem reads_end {s : Source} (steady : s.Steady) (h : s.bytes = []) (n : Nat) :
    reads n s = List.replicate n (.ok none) := by
  induction n generalizing s with
  | zero => rfl
  | succ n ih =>
    rw [reads, read_end steady h, ih (s := []) nofun rfl, List.replicate_succ]

theorem reads_frames {payloads : List Bytes} {s : Source} (steady : s.Steady)
    (short : ∀ p ∈ payloads, p.length < 0x100000000) (h : s.bytes = payloads.flatMap encode) (n : Nat) :
    reads (payloads.length + n) s = payloads.map (.ok ∘ some) ++ List.replicate n (.ok none) := by
  induction payloads generalizing s with
  | nil =>
    rw [List.length_nil, Nat.zero_add]
    exact reads_end steady h n
  | cons p payloads ih =>
    have ⟨first, others⟩ := List.forall_mem_cons.mp short
    rw [List.flatMap_cons] at h
    obtain ⟨rest, taken, remaining, steady⟩ := read_encode steady first h
    rw [List.length_cons, Nat.add_right_comm, reads, taken, ih steady others remaining]
    rfl

end Frame

/-- Every message that fits is sent, and however its bytes arrive there is one frame for it, from which it is read back;
after the frames comes the end of the stream. Both ends put the least significant byte of a length first. -/
theorem messages_get_through {limit : Nat} {ms : List Message} {o : Outlet} (small : limit < 0x100000000)
    (within : ∀ m ∈ ms, m.payload.length ≤ limit) (faultless : o.Faultless) :
    (o.sendAll limit ms).1 = List.replicate ms.length (.ok ()) ∧
    (∀ s : Source, s.Steady → (o.sendAll limit ms).2.accepted = o.accepted ++ s.bytes → ∀ n,
      Frame.reads (ms.length + n) s =
        ms.map (fun m => .ok (some m.payload)) ++ List.replicate n (.ok none)) ∧
    (∀ m ∈ ms, Message.parse m.payload = .ok m) ∧
    (∀ m ∈ ms, Nat.ofDigits 0x100 ((m.frame.take 4).map UInt8.toNat) = m.payload.length) ∧
    ∀ header, Frame.announced header = Nat.ofDigits 0x100 (header.map UInt8.toNat) := by
  have short : ∀ m ∈ ms, m.payload.length < 0x100000000 := fun m hm => Nat.lt_of_le_of_lt (within m hm) small
  have fits : ∀ m ∈ ms, m.Fits limit := fun m hm => ⟨within m hm, Nat.le_of_lt_succ (short m hm)⟩
  obtain ⟨results, accepted⟩ := Outlet.sendAll_fitting fits faultless
  refine ⟨results, ?_, fun m _ => m.parse_payload, ?_, Frame.announced_eq_ofDigits⟩
  · intro s steady arrived n
    have arrived : s.bytes = (ms.map Message.payload).flatMap Frame.encode := by
      rw [List.flatMap_map]
      exact List.append_cancel_left (arrived.symm.trans accepted)
    have read := Frame.reads_frames steady (List.forall_mem_map.mpr short) arrived n
    rw [List.length_map, List.map_map] at read
    exact read
  · intro m hm
    rw [Message.frame, Frame.encode, List.take_left' (Frame.length_header _), Frame.ofDigits_header (short m hm)]

/-! Two messages, written and read in pieces that have nothing to do with their frames. -/
namespace InPieces

def messages : List Message := [.created "a" "\u00e9", .deleted "a"]

def outlet : Outlet := ⟨[.takes 1, .fails (.ofKind .interrupted), .takes 30, .takes 2], [none], [], 0⟩

def bytes : Bytes := messages.flatMap Message.frame

def arriving : Source :=
  [.data (bytes.take 2), .fails (.ofKind .interrupted), .data ((bytes.drop 2).take 5), .fails (.ofKind .interrupted),
    .data (bytes.drop 7)]

theorem read_in_pieces :
    (outlet.sendAll 64 messages).1 = [.ok (), .ok ()] ∧ (outlet.sendAll 64 messages).2.accepted = arriving.bytes ∧
      Frame.reads 4 arriving =
        [.ok (some (Message.payload (.created "a" "\u00e9"))), .ok (some (Message.payload (.deleted "a"))), .ok none,
          .ok none] := by
  have within : ∀ m ∈ messages, m.payload.length ≤ 64 := by decide +kernel
  have faultless : outlet.Faultless := by
    constructor
    · simp [outlet, IoFault.ofKind]
    · simp [outlet]
  have steady : arriving.Steady := by
    intro fault hf
    simp only [arriving, List.mem_cons, reduceCtorEq, Source.Item.fails.injEq, false_or, or_false, List.not_mem_nil,
      or_self] at hf
    rw [hf]
    rfl
  have arrived : (outlet.sendAll 64 messages).2.accepted = arriving.bytes := by decide +kernel
  obtain ⟨results, read, -⟩ := messages_get_through (by decide) within faultless
  exact ⟨results, arrived, read arriving steady arrived 2⟩

end InPieces
end StyleFeed
