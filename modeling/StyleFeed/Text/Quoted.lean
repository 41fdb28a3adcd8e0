import StyleFeed.Text.Printable
import StyleFeed.Text.Utf8

/-!
Byte strings quoted for a reader: text stands as it is, the quote, the backslash and whatever cannot be
seen are escaped, and bytes that are not text are given in hexadecimal.
-/

namespace StyleFeed.Text

def escapeChar (c : Char) : List Char :=
  if c = '"' then ['\\', '"']
  else if c = '\\' then ['\\', '\\']
  else if c = '\x00' then ['\\', '0']
  else if c = '\t' then ['\\', 't']
  else if c = '\n' then ['\\', 'n']
  else if c = '\r' then ['\\', 'r']
  else if isPrintable c then [c]
  else ['\\', 'u', '{'] ++ Nat.toDigits 16 c.toNat ++ ['}']

def escapeByte (b : UInt8) : List Char :=
  ['\\', 'x'] ++ (if b < 0x10 then ['0'] else []) ++ (Nat.toDigits 16 b.toNat).map Char.toUpper

def escapePiece : Utf8.Piece → List Char
  | .char c => escapeChar c
  | .broken bytes => bytes.flatMap escapeByte

def quoted (b : Bytes) : String :=
  String.ofList ('"' :: (Utf8.pieces b).flatMap escapePiece ++ ['"'])

end StyleFeed.Text
