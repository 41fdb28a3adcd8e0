import StyleFeed.Json.Text

/-!
The tokens of a JSON text. The lexer is a machine that takes one byte at a time, so that what it has said
about a text does not depend on what follows. It ends at the first token that is not well formed.
-/

namespace StyleFeed.Json

inductive Word
  | null
  | true
  | false
deriving DecidableEq

/-- A token that is more than one byte long, as far as it was read. -/
inductive Begun
  | text (units : List TextUnit)
  | number
  | word
deriving DecidableEq

/-- Why a token is not well formed. -/
inductive Flaw
  | cut
  | malformed
deriving DecidableEq

inductive Lexeme
  | beginObject
  | endObject
  | beginArray
  | endArray
  | comma
  | colon
  | text (units : List TextUnit)
  | number (literal : Bytes)
  | word (w : Word)
  | broken (begun : Begun) (flaw : Flaw)
  /-- A byte that begins no token. -/
  | stray
deriving DecidableEq

/-- A lexeme and the number of bytes before it. -/
structure Token where
  lexeme : Lexeme
  offset : Nat
deriving DecidableEq

namespace Token

/-- Where a number stands after its last byte. -/
inductive Digits
  | sign
  | zero
  | whole
  | point
  | fraction
  | exponent
  | exponentSign
  | power
deriving DecidableEq

/-- What the machine is inside of; texts and literals are held in reverse. -/
inductive Inside
  | nothing
  | text (units : List TextUnit)
  | escape (units : List TextUnit)
  | hex (units : List TextUnit) (digits : Bytes)
  | number (place : Digits) (literal : Bytes)
  | word (w : Word) (owed : Bytes)
  | failed
deriving DecidableEq

structure State where
  inside : Inside
  /-- The number of bytes read. -/
  read : Nat
  /-- The offset of the token that the machine is inside of. -/
  begun : Nat
deriving DecidableEq

def State.initial : State := ⟨.nothing, 0, 0⟩

namespace Digits

/-- Where a number stands after one more byte that belongs to it. -/
def next? (d : Digits) (b : UInt8) : Option Digits :=
  let digit : Bool := 0x30 ≤ b && b ≤ 0x39
  match d with
  | .sign => if b = 0x30 then some .zero else if digit then some .whole else none
  | .zero => if b = 0x2e then some .point else if b = 0x65 ∨ b = 0x45 then some .exponent else none
  | .whole =>
    if digit then some .whole
    else if b = 0x2e then some .point
    else if b = 0x65 ∨ b = 0x45 then some .exponent else none
  | .point => if digit then some .fraction else none
  | .fraction =>
    if digit then some .fraction else if b = 0x65 ∨ b = 0x45 then some .exponent else none
  | .exponent =>
    if b = 0x2b ∨ b = 0x2d then some .exponentSign else if digit then some .power else none
  | .exponentSign => if digit then some .power else none
  | .power => if digit then some .power else none

/-- A number may end here. -/
def complete : Digits → Bool
  | .zero | .whole | .fraction | .power => true
  | _ => false

/-- The byte after a zero may not be a digit; elsewhere a complete number ends before any other byte. -/
def mayEndBefore (d : Digits) (b : UInt8) : Bool :=
  d.complete && !(d == .zero && 0x30 ≤ b && b ≤ 0x39)

end Digits

/-- The first byte of a token, or a blank. -/
def begin (b : UInt8) : Inside × Option Lexeme :=
  if b = 0x20 ∨ b = 0x09 ∨ b = 0x0a ∨ b = 0x0d then (.nothing, none)
  else if b = 0x7b then (.nothing, some .beginObject)
  else if b = 0x7d then (.nothing, some .endObject)
  else if b = 0x5b then (.nothing, some .beginArray)
  else if b = 0x5d then (.nothing, some .endArray)
  else if b = 0x2c then (.nothing, some .comma)
  else if b = 0x3a then (.nothing, some .colon)
  else if b = 0x22 then (.text [], none)
  else if b = 0x2d then (.number .sign [b], none)
  else if b = 0x30 then (.number .zero [b], none)
  else if 0x31 ≤ b ∧ b ≤ 0x39 then (.number .whole [b], none)
  else if b = 0x6e then (.word .null [0x75, 0x6c, 0x6c], none)
  else if b = 0x74 then (.word .true [0x72, 0x75, 0x65], none)
  else if b = 0x66 then (.word .false [0x61, 0x6c, 0x73, 0x65], none)
  else (.failed, some .stray)

/-- One byte of a text, after the opening quote. -/
def textStep (units : List TextUnit) (b : UInt8) : Inside × Option Lexeme :=
  if b = 0x22 then (.nothing, some (.text units.reverse))
  else if b = 0x5c then (.escape units, none)
  else if b < 0x20 then (.failed, some (.broken (.text units.reverse) .malformed))
  else (.text (.byte b :: units), none)

def escapeStep (units : List TextUnit) (b : UInt8) : Inside × Option Lexeme :=
  if b = 0x75 then (.hex units [], none)
  else match TextUnit.escaped? b with
    | some u => (.text (u :: units), none)
    | none => (.failed, some (.broken (.text units.reverse) .malformed))

/-- An escaped code unit is looked at when all its four digits are there. -/
def hexStep (units : List TextUnit) (digits : Bytes) (b : UInt8) : Inside × Option Lexeme :=
  if digits.length < 3 then (.hex units (b :: digits), none)
  else match TextUnit.ofHex? (b :: digits).reverse with
    | some u => (.text (u :: units), none)
    | none => (.failed, some (.broken (.text units.reverse) .malformed))

def wordStep (w : Word) (owed : Bytes) (b : UInt8) : Inside × Option Lexeme :=
  match owed with
  | [c] => if b = c then (.nothing, some (.word w)) else (.failed, some (.broken .word .malformed))
  | c :: more =>
    if b = c then (.word w more, none) else (.failed, some (.broken .word .malformed))
  | [] => (.failed, some (.broken .word .malformed))

/-- The tokens that a byte completes, and the state after it. -/
def step (s : State) (b : UInt8) : List Token × State :=
  let inside (r : Inside × Option Lexeme) : List Token × State :=
    ((r.2.map (⟨·, s.begun⟩)).toList, ⟨r.1, s.read + 1, s.begun⟩)
  let fresh : List Token × State :=
    (((begin b).2.map (⟨·, s.read⟩)).toList, ⟨(begin b).1, s.read + 1, s.read⟩)
  match s.inside with
  | .nothing => fresh
  | .text units => inside (textStep units b)
  | .escape units => inside (escapeStep units b)
  | .hex units digits => inside (hexStep units digits b)
  | .word w owed => inside (wordStep w owed b)
  | .number d literal =>
    match d.next? b with
    | some d => inside (.number d (b :: literal), none)
    | none =>
      if d.mayEndBefore b then (⟨.number literal.reverse, s.begun⟩ :: fresh.1, fresh.2)
      else inside (.failed, some (.broken .number .malformed))
  | .failed => ([], s)

/-- The token that the end of the text completes or cuts off. -/
def finish (s : State) : List Token :=
  match s.inside with
  | .nothing | .failed => []
  | .text units | .escape units | .hex units _ => [⟨.broken (.text units.reverse) .cut, s.begun⟩]
  | .word _ _ => [⟨.broken .word .cut, s.begun⟩]
  | .number d literal =>
    if d.complete then [⟨.number literal.reverse, s.begun⟩] else [⟨.broken .number .cut, s.begun⟩]

def scanFrom (s : State) : Bytes → List Token
  | [] => finish s
  | b :: rest =>
    match step s b with
    | ([], s) => scanFrom s rest
    | (t :: ts, s) => t :: ts ++ scanFrom s rest

def scan (text : Bytes) : List Token :=
  scanFrom .initial text

end Token
end StyleFeed.Json
