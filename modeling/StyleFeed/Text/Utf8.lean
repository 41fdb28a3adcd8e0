/-!
Text as bytes. A byte string is text when it is well-formed UTF-8; any other byte string is shown with one
replacement character for each maximal broken part.
-/

namespace StyleFeed

abbrev Bytes := List UInt8

namespace Utf8

def encode (s : String) : Bytes :=
  s.toList.flatMap String.utf8EncodeChar

def decode? (b : Bytes) : Option String :=
  String.fromUTF8? b.toByteArray

/-- A stretch of bytes that is one character, or the longest start of one that the next byte breaks off. -/
inductive Piece
  | char (c : Char)
  | broken (bytes : Bytes)
deriving DecidableEq, Repr

/-- The ranges of the bytes that have to follow a first byte. Overlong forms, surrogates and code points
above U+10FFFF are shut out by the range of the second byte. -/
def following? (first : UInt8) : Option (List (UInt8 × UInt8)) :=
  let any : UInt8 × UInt8 := (0x80, 0xbf)
  if first < 0x80 then some []
  else if first < 0xc2 then none
  else if first < 0xe0 then some [any]
  else if first = 0xe0 then some [(0xa0, 0xbf), any]
  else if first = 0xed then some [(0x80, 0x9f), any]
  else if first < 0xf0 then some [any, any]
  else if first = 0xf0 then some [(0x90, 0xbf), any, any]
  else if first < 0xf4 then some [any, any, any]
  else if first = 0xf4 then some [(0x80, 0x8f), any, any]
  else none

/-- The longest run of bytes that fits the ranges one by one, and the rest. -/
def run : List (UInt8 × UInt8) → Bytes → Bytes × Bytes
  | (low, high) :: ranges, b :: rest =>
    if low ≤ b ∧ b ≤ high then (b :: (run ranges rest).1, (run ranges rest).2) else ([], b :: rest)
  | _, rest => ([], rest)

theorem run_append (ranges : List (UInt8 × UInt8)) (b : Bytes) :
    (run ranges b).1 ++ (run ranges b).2 = b := by
  fun_induction run ranges b with
  | case1 low high ranges b rest h ih => simp [ih]
  | case2 => rfl
  | case3 => rfl

/-- The code point of a first byte and its followers, six bits for each follower. -/
def codePoint (first : UInt8) (followers : Bytes) : Nat :=
  let bits : Nat := match followers.length with
    | 0 => 0x80
    | 1 => 0x20
    | 2 => 0x10
    | _ => 0x08
  followers.foldl (fun n b => n * 0x40 + b.toNat % 0x40) (first.toNat % bits)

def pieces : Bytes → List Piece
  | [] => []
  | first :: rest =>
    match following? first with
    | none => .broken [first] :: pieces rest
    | some ranges =>
      let followers := (run ranges rest).1
      let piece := if followers.length = ranges.length
        then Piece.char (Char.ofNat (codePoint first followers)) else Piece.broken (first :: followers)
      piece :: pieces (run ranges rest).2
termination_by b => b.length
decreasing_by
  · simp
  · have := congrArg List.length (run_append ranges rest)
    simp only [List.length_append] at this
    simp only [List.length_cons]
    omega

def Piece.shown : Piece → Char
  | .char c => c
  | .broken _ => '\ufffd'

/-- The text of a byte string, whatever it holds. -/
def lossy (b : Bytes) : String :=
  (decode? b).getD (String.ofList ((pieces b).map Piece.shown))

theorem lossy_of_decode {b : Bytes} {s : String} (h : decode? b = some s) : lossy b = s := by
  simp [lossy, h]

end Utf8
end StyleFeed
