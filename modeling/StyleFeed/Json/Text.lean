import StyleFeed.Text.Utf8

/-!
Quoted text in JSON: how a string is written, and what the inside of a quoted text says.

Writing escapes the quote, the backslash and the control characters below U+0020 and nothing else. Reading
also accepts escaped code units of UTF-16, which have to pair up when the text is used.
-/

namespace StyleFeed.Json

def hexDigit (n : Nat) : Char :=
  if n < 10 then Char.ofNat (0x30 + n) else Char.ofNat (0x57 + n)

def escape (c : Char) : List Char :=
  if c = '"' then ['\\', '"']
  else if c = '\\' then ['\\', '\\']
  else if c = '\x08' then ['\\', 'b']
  else if c = '\t' then ['\\', 't']
  else if c = '\n' then ['\\', 'n']
  else if c = '\x0c' then ['\\', 'f']
  else if c = '\r' then ['\\', 'r']
  else if c.toNat < 0x20 then ['\\', 'u', '0', '0', hexDigit (c.toNat / 16), hexDigit (c.toNat % 16)]
  else [c]

def quote (s : String) : List Char :=
  '"' :: s.toList.flatMap escape ++ ['"']

/-- The number of bytes that a byte of a string is written with. -/
def escapedSize (b : UInt8) : Nat :=
  if b = 0x22 ∨ b = 0x5c ∨ b = 0x08 ∨ b = 0x09 ∨ b = 0x0a ∨ b = 0x0c ∨ b = 0x0d then 2
  else if b < 0x20 then 6
  else 1

/-- The number of bytes that the first `i` bytes of a string are written with, and `n` more. -/
def escapedSizeTo (text : ByteArray) : (i n : Nat) → Nat
  | 0, n => n
  | i + 1, n => escapedSizeTo text i (n + escapedSize (text.get! i))

/-- The number of bytes that a string is written with, its quotes included. -/
def quotedSize (s : String) : Nat :=
  escapedSizeTo s.toByteArray s.utf8ByteSize 2

/-- The number of bytes that fields are written with, each with a colon and a comma or a bracket after it. -/
def fieldsSize : List (String × String) → Nat
  | [] => 0
  | (key, text) :: rest => quotedSize key + quotedSize text + 2 + fieldsSize rest

/-- What a quoted text is made of: a byte of UTF-8, or an escaped code unit of UTF-16. -/
inductive TextUnit
  | byte (b : UInt8)
  | code (u : Nat)
deriving DecidableEq

namespace TextUnit

def escaped? (b : UInt8) : Option TextUnit :=
  if b = 0x22 ∨ b = 0x5c ∨ b = 0x2f then some (.byte b)
  else if b = 0x62 then some (.byte 0x08)
  else if b = 0x66 then some (.byte 0x0c)
  else if b = 0x6e then some (.byte 0x0a)
  else if b = 0x72 then some (.byte 0x0d)
  else if b = 0x74 then some (.byte 0x09)
  else none

def hexValue? (b : UInt8) : Option Nat :=
  if 0x30 ≤ b ∧ b ≤ 0x39 then some (b.toNat - 0x30)
  else if 0x41 ≤ b ∧ b ≤ 0x46 then some (b.toNat - 0x37)
  else if 0x61 ≤ b ∧ b ≤ 0x66 then some (b.toNat - 0x57)
  else none

def ofHex? (digits : Bytes) : Option TextUnit :=
  (digits.foldlM (fun n b => (hexValue? b).map (n * 16 + ·)) 0).map .code

end TextUnit

/-- What the units of a text spell. -/
inductive Spelling
  | bytes (b : Bytes)
  /-- A code unit that belongs to no character. -/
  | unpaired
  /-- The units end after the first half of a pair. -/
  | half
deriving DecidableEq

def isLeading (u : Nat) : Bool := 0xd800 ≤ u && u < 0xdc00
def isTrailing (u : Nat) : Bool := 0xdc00 ≤ u && u < 0xe000

/-- Spells the units after `written`, which stands in reverse. -/
def spellAfter (written : Bytes) : List TextUnit → Spelling
  | [] => .bytes written.reverse
  | .byte b :: rest => spellAfter (b :: written) rest
  | .code u :: rest =>
    if isTrailing u then .unpaired
    else if isLeading u then
      match rest with
      | [] => .half
      | .code v :: more =>
        if isTrailing v then
          let c := Char.ofNat (0x10000 + (u - 0xd800) * 0x400 + (v - 0xdc00))
          spellAfter ((String.utf8EncodeChar c).reverse ++ written) more
        else .unpaired
      | .byte _ :: _ => .unpaired
    else spellAfter ((String.utf8EncodeChar (Char.ofNat u)).reverse ++ written) rest

def spell (units : List TextUnit) : Spelling :=
  spellAfter [] units

end StyleFeed.Json
