import StyleFeed.Json.Numeral
import StyleFeed.Json.Token

/-!
JSON values: the compact and the indented text of one, and reading one from a text. Values nest without
limit, so the reader keeps the open lists and objects on a stack of its own.
-/

namespace StyleFeed.Json

/-- A number is kept as it is written. -/
inductive Value
  | null
  | bool (b : Bool)
  | number (literal : Bytes)
  | text (s : String)
  | list (items : List Value)
  | object (fields : List (String × Value))

namespace Value

def literal : Bool → List Char
  | true => "true".toList
  | false => "false".toList

mutual
def compact : Value → List Char
  | null => "null".toList
  | bool b => literal b
  | number digits => digits.map fun d => Char.ofNat d.toNat
  | text s => quote s
  | list items => '[' :: compactItems items ++ [']']
  | object fields => '{' :: compactFields fields ++ ['}']

def compactItems : List Value → List Char
  | [] => []
  | [v] => compact v
  | v :: vs => compact v ++ ',' :: compactItems vs

def compactFields : List (String × Value) → List Char
  | [] => []
  | [(k, v)] => quote k ++ ':' :: compact v
  | (k, v) :: fs => quote k ++ ':' :: compact v ++ ',' :: compactFields fs
end

/-- A new line, two blanks for each level. -/
def newLine (level : Nat) : List Char :=
  '\n' :: List.replicate (2 * level) ' '

mutual
def indented (level : Nat) : Value → List Char
  | null => "null".toList
  | bool b => literal b
  | number digits => digits.map fun d => Char.ofNat d.toNat
  | text s => quote s
  | list [] => ['[', ']']
  | list (v :: vs) => '[' :: indentedItems (level + 1) (v :: vs) ++ newLine level ++ [']']
  | object [] => ['{', '}']
  | object (f :: fs) => '{' :: indentedFields (level + 1) (f :: fs) ++ newLine level ++ ['}']

def indentedItems (level : Nat) : List Value → List Char
  | [] => []
  | [v] => newLine level ++ indented level v
  | v :: vs => newLine level ++ indented level v ++ ',' :: indentedItems level vs

def indentedFields (level : Nat) : List (String × Value) → List Char
  | [] => []
  | [(k, v)] => newLine level ++ quote k ++ ':' :: ' ' :: indented level v
  | (k, v) :: fs =>
    newLine level ++ quote k ++ ':' :: ' ' :: indented level v ++ ',' :: indentedFields level fs
end

end Value

/-- Where a text ended too early. -/
inductive Place
  | value
  | list
  | object
  | text
deriving DecidableEq

/-- Why a text is not one value: where it was looked at, as a number of bytes. -/
inductive Refusal
  | ended (inside : Place)
  | trailing (offset : Nat)
  | malformed (offset : Nat)
deriving DecidableEq

/-- A line counted from one and a number of bytes on it. -/
structure Position where
  line : Nat
  column : Nat
deriving DecidableEq

/-- Where one is after reading `read` bytes of the text. -/
def position (text : Bytes) (read : Nat) : Position :=
  ⟨1 + (text.take read).count 0x0a, ((text.take read).reverse.takeWhile (· != 0x0a)).length⟩

namespace Refusal

def reason : Refusal → String
  | .ended .value => "EOF while parsing a value"
  | .ended .list => "EOF while parsing a list"
  | .ended .object => "EOF while parsing an object"
  | .ended .text => "EOF while parsing a string"
  | .trailing _ => "trailing characters"
  | .malformed _ => "expected value"

/-- An offending byte counts as read. -/
def read (text : Bytes) : Refusal → Nat
  | .ended _ => text.length
  | .trailing offset | .malformed offset => offset + 1

def message (text : Bytes) (r : Refusal) : String :=
  let p := position text (r.read text)
  s!"{r.reason} at line {p.line} column {p.column}"

end Refusal

namespace Value

/-- A list or an object that is not closed yet; what it holds stands in reverse. -/
inductive Open
  | list (items : List Value)
  | object (fields : List (String × Value)) (key : String)

/-- What may come next. -/
inductive Expected
  | value
  | itemOrEnd
  | key
  | keyOrEnd
  | colon
  | more
deriving DecidableEq

def Open.place : List Open → Place
  | .list _ :: _ => .list
  | .object .. :: _ => .object
  | [] => .value

/-- Where a text that ends here ended too early. -/
def Expected.ended (e : Expected) (opened : List Open) : Refusal :=
  match e with
  | .value | .key => .ended .value
  | .itemOrEnd | .keyOrEnd | .colon | .more => .ended (Open.place opened)

/-- The strict reading of a text: its bytes are UTF-8 and its code units pair up. -/
def strict? (units : List TextUnit) : Option String :=
  match spell units with
  | .bytes b => Utf8.decode? b
  | .unpaired | .half => none

/-- A token that is a value of its own, or the first of one. -/
def atom (t : Token) : Except Refusal Value :=
  match t.lexeme with
  | .text units =>
    match strict? units with
    | some s => .ok (.text s)
    | none => .error (.malformed t.offset)
  | .number digits =>
    if Numeral.overflows digits then .error (.malformed t.offset) else .ok (.number digits)
  | .word .null => .ok .null
  | .word .true => .ok (.bool true)
  | .word .false => .ok (.bool false)
  | .broken (.text units) .cut =>
    if spell units = .unpaired then .error (.malformed t.offset) else .error (.ended .text)
  | .broken _ .cut => .error (.ended .value)
  | _ => .error (.malformed t.offset)

/-- A value is complete: it is the whole one, or belongs to what is open. -/
def place (v : Value) : List Open → Value ⊕ List Open
  | [] => .inl v
  | .list items :: outer => .inr (.list (v :: items) :: outer)
  | .object fields key :: outer => .inr (.object ((key, v) :: fields) key :: outer)

def readFrom : Expected → List Open → List Token → Except Refusal (Value × List Token)
  | e, opened, [] => .error (e.ended opened)
  | e, opened, t :: ts =>
    let complete (v : Value) (outer : List Open) : Except Refusal (Value × List Token) :=
      match place v outer with
      | .inl v => .ok (v, ts)
      | .inr opened => readFrom .more opened ts
    let value : Except Refusal (Value × List Token) :=
      match t.lexeme with
      | .beginArray => readFrom .itemOrEnd (.list [] :: opened) ts
      | .beginObject => readFrom .keyOrEnd (.object [] "" :: opened) ts
      | _ => do complete (← atom t) opened
    match e, opened, t.lexeme with
    | .value, _, _ => value
    | .itemOrEnd, .list _ :: outer, .endArray => complete (.list []) outer
    | .itemOrEnd, _, _ => value
    | .keyOrEnd, .object .. :: outer, .endObject => complete (.object []) outer
    | .keyOrEnd, .object fields _ :: outer, _ | .key, .object fields _ :: outer, _ =>
      match t.lexeme with
      | .text _ | .broken (.text _) _ => do
        match ← atom t with
        | .text s => readFrom .colon (.object fields s :: outer) ts
        | _ => .error (.malformed t.offset)
      | _ => .error (.malformed t.offset)
    | .colon, _, .colon => readFrom .value opened ts
    | .more, .list _ :: _, .comma => readFrom .value opened ts
    | .more, .list items :: outer, .endArray => complete (.list items.reverse) outer
    | .more, .object .. :: _, .comma => readFrom .key opened ts
    | .more, .object fields _ :: outer, .endObject => complete (.object fields.reverse) outer
    | _, _, _ => .error (.malformed t.offset)

/-- The one value that a text holds. -/
def read (text : Bytes) : Except Refusal Value := do
  match ← readFrom .value [] (Token.scan text) with
  | (v, []) => .ok v
  | (_, t :: _) => .error (.trailing t.offset)

end Value
end StyleFeed.Json
