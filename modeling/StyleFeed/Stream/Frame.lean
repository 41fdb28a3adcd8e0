import StyleFeed.Fault

/-!
Frames: four bytes that say how long the payload is, the least significant first, then the payload. A
stream of bytes comes in chunks of any size, and a read may fail in between; what the frames are does not
depend on the chunks.
-/

namespace StyleFeed

/-- A stream of bytes, as the reads on it see it: a read takes from one chunk only, a fault is met once,
and after the last item the stream is at its end. -/
inductive Source.Item
  | data (bytes : Bytes)
  | fails (fault : IoFault)
deriving DecidableEq

abbrev Source := List Source.Item

namespace Source

/-- The number of bytes in the stream. -/
def size : Source → Nat
  | [] => 0
  | .data bytes :: rest => bytes.length + size rest
  | .fails _ :: rest => size rest

inductive Filled
  | full (bytes : Bytes)
  /-- The stream ended with fewer bytes. -/
  | ended (bytes : Bytes)
  | failed (fault : IoFault)
deriving DecidableEq

/-- Reads until `need` more bytes have come after `got`. An interrupted read is tried again. -/
def fill (need : Nat) (got : Bytes) : Source → Filled × Source
  | [] => if need = 0 then (.full got, []) else (.ended got, [])
  | .data bytes :: rest =>
    if need = 0 then (.full got, .data bytes :: rest)
    else if bytes.length < need then fill (need - bytes.length) (got ++ bytes) rest
    else (.full (got ++ bytes.take need), .data (bytes.drop need) :: rest)
  | .fails fault :: rest =>
    if need = 0 then (.full got, .fails fault :: rest)
    else if fault.kind = .interrupted then fill need got rest
    else (.failed fault, rest)

theorem size_fill {need : Nat} {got bytes : Bytes} {s : Source}
    (h : (fill need got s).1 = .full bytes) : (fill need got s).2.size + need = s.size := by
  fun_induction fill need got s with
  | case1 => rfl
  | case2 => cases h
  | case3 => rfl
  | case4 need got bytes rest zero short ih =>
    have := ih h
    simp only [size]
    omega
  | case5 need got bytes rest zero short =>
    simp only [size, List.length_drop]
    omega
  | case6 => rfl
  | case7 need got fault rest zero retry ih => exact ih h
  | case8 => cases h

theorem size_fill_le (need : Nat) (got : Bytes) (s : Source) : (fill need got s).2.size ≤ s.size := by
  fun_induction fill need got s with
  | case1 | case2 | case3 | case6 | case8 => simp [size]
  | case4 need got bytes rest zero short ih => simp only [size]; omega
  | case5 need got bytes rest zero short => simp only [size, List.length_drop]; omega
  | case7 need got fault rest zero retry ih => exact ih

end Source

namespace Frame

/-- The number as four bytes, for numbers below 2 ^ 32. -/
def header (n : Nat) : Bytes :=
  [UInt8.ofNat n, UInt8.ofNat (n / 0x100), UInt8.ofNat (n / 0x10000), UInt8.ofNat (n / 0x1000000)]

/-- The length that a header announces. -/
def announced (header : Bytes) : Nat :=
  header.foldr (fun b n => b.toNat + 0x100 * n) 0

def encode (payload : Bytes) : Bytes :=
  header payload.length ++ payload

/-- The payload of the next frame, or nothing where the stream ends between two frames. -/
def read (s : Source) : Except IoFault (Option Bytes) × Source :=
  match Source.fill 4 [] s with
  | (.full header, s) =>
    match Source.fill (announced header) [] s with
    | (.full payload, s) => (.ok (some payload), s)
    | (.ended _, s) => (.error .endedEarly, s)
    | (.failed fault, s) => (.error fault, s)
  | (.ended [], s) => (.ok none, s)
  | (.ended (_ :: _), s) => (.error (.ofKind .unexpectedEof), s)
  | (.failed fault, s) => (.error fault, s)

theorem size_read {s : Source} {payload : Bytes} (h : (read s).1 = .ok (some payload)) :
    (read s).2.size < s.size := by
  unfold read at h ⊢
  split at h
  · rename_i header rest hf
    have first := @Source.size_fill 4 [] header s (by simp [hf])
    split at h
    · rename_i payload' rest' hp
      have second := Source.size_fill_le (announced header) [] rest
      simp only [hf, hp] at first second ⊢
      omega
    · cases h
    · cases h
  · cases h
  · cases h
  · cases h

/-- The payloads up to the end of the stream or the first fault, and that fault. -/
def readAll (s : Source) : List Bytes × Option IoFault :=
  match _h : read s with
  | (.ok (some payload), rest) =>
    let more := readAll rest
    (payload :: more.1, more.2)
  | (.ok none, _) => ([], none)
  | (.error fault, _) => ([], some fault)
termination_by s.size
decreasing_by
  have := @size_read s payload (by rw [_h])
  rwa [_h] at this

end Frame
end StyleFeed
