/-!
The scalars of TOML that are written without quotes: integers, floats, booleans, and dates and times. Each
is read from the whole of a word.
-/

namespace StyleFeed.Toml

/-- A float, a date or a time is kept as it is written. -/
inductive Scalar
  | integer (n : Int)
  | float (word : String)
  | boolean (b : Bool)
  | moment (word : String)
deriving DecidableEq, Repr

namespace Scalar

def isHexDigit (c : Char) : Bool :=
  c.isDigit || ('a' ≤ c && c ≤ 'f') || ('A' ≤ c && c ≤ 'F')

def digitValue (c : Char) : Nat :=
  if c.isDigit then c.toNat - '0'.toNat
  else if c.isUpper then c.toNat - 'A'.toNat + 10
  else c.toNat - 'a'.toNat + 10

/-- Digits, with single underscores between them. -/
def grouped (isDigit : Char → Bool) : List Char → Bool
  | [] => false
  | [c] => isDigit c
  | c :: '_' :: rest => isDigit c && grouped isDigit rest
  | c :: rest => isDigit c && grouped isDigit rest

def groupedValue (base : Nat) (cs : List Char) : Nat :=
  (cs.filter (· != '_')).foldl (fun n c => n * base + digitValue c) 0

/-- Digits of which the first is zero only if it is the only one. -/
def natural? (cs : List Char) : Option Nat :=
  if cs = ['0'] then some 0
  else if cs.head? ≠ some '0' ∧ grouped Char.isDigit cs then some (groupedValue 10 cs)
  else none

def based? (base : Nat) (isDigit : Char → Bool) (cs : List Char) : Option Int :=
  if grouped isDigit cs then some (groupedValue base cs) else none

/-- An integer of any size. -/
def whole? : List Char → Option Int
  | '0' :: 'x' :: cs => based? 16 isHexDigit cs
  | '0' :: 'o' :: cs => based? 8 (fun c => '0' ≤ c && c ≤ '7') cs
  | '0' :: 'b' :: cs => based? 2 (fun c => c == '0' || c == '1') cs
  | '+' :: cs => (natural? cs).map Int.ofNat
  | '-' :: cs => (natural? cs).map fun n => -Int.ofNat n
  | cs => (natural? cs).map Int.ofNat

/-- An integer of 64 bits. -/
def integer? (word : List Char) : Option Int :=
  (whole? word).filter fun n => -0x8000000000000000 ≤ n && n < 0x8000000000000000

/-- The sign of a float, and the rest. -/
def signed : List Char → Bool × List Char
  | '+' :: cs => (false, cs)
  | '-' :: cs => (true, cs)
  | cs => (false, cs)

/-- A decimal float as its digits before the point, its digits after it and its exponent. -/
def decimal? (cs : List Char) : Option (List Char × List Char × Int) := do
  let isGrouped (c : Char) : Bool := c.isDigit || c == '_'
  let whole := cs.takeWhile isGrouped
  let _ ← natural? whole
  let exponent? : List Char → Option Int
    | [] => some 0
    | 'e' :: r | 'E' :: r =>
      let (negative, digits) := signed r
      if grouped Char.isDigit digits then
        some (if negative then -Int.ofNat (groupedValue 10 digits) else Int.ofNat (groupedValue 10 digits))
      else none
    | _ => none
  match cs.dropWhile isGrouped with
  | '.' :: r =>
    let fraction := r.takeWhile isGrouped
    if grouped Char.isDigit fraction then
      return (whole, fraction, ← exponent? (r.dropWhile isGrouped))
    else none
  | [] => none
  | r => return (whole, [], ← exponent? r)

/-- The decimal is so large that no finite 64-bit float is as near as infinity. -/
def overflows (whole fraction : List Char) (exponent : Int) : Bool :=
  let digits := (whole ++ fraction).filter (· != '_')
  let n := groupedValue 10 digits
  let scale := exponent - (fraction.filter (· != '_')).length
  let limit := Nat.pow 2 1024 - Nat.pow 2 970
  if n = 0 then false
  else if 400 < scale then true
  else if 0 ≤ scale then limit ≤ n * Nat.pow 10 scale.toNat
  else if digits.length + scale < 300 then false
  else limit * Nat.pow 10 (-scale).toNat ≤ n

def isFloat (word : List Char) : Bool :=
  let (negative, cs) := signed word
  if cs = ['i', 'n', 'f'] ∨ cs = ['n', 'a', 'n'] then true
  else match decimal? cs with
    | some (whole, fraction, exponent) => negative || !overflows whole fraction exponent
    | none => false

/-- A number of the given digits, none of them missing. -/
def number? (cs : List Char) : Option Nat :=
  if cs.all Char.isDigit then some (groupedValue 10 cs) else none

def daysIn (year month : Nat) : Nat :=
  if month = 2 then if year % 4 = 0 ∧ (year % 100 ≠ 0 ∨ year % 400 = 0) then 29 else 28
  else if month = 4 ∨ month = 6 ∨ month = 9 ∨ month = 11 then 30
  else 31

/-- What follows a date at the front of a word. -/
def afterDate? : List Char → Option (List Char)
  | y₁ :: y₂ :: y₃ :: y₄ :: '-' :: m₁ :: m₂ :: '-' :: d₁ :: d₂ :: rest => do
    let year ← number? [y₁, y₂, y₃, y₄]
    let month ← number? [m₁, m₂]
    let day ← number? [d₁, d₂]
    if 1 ≤ month ∧ month ≤ 12 ∧ 1 ≤ day ∧ day ≤ daysIn year month then some rest else none
  | _ => none

/-- What follows a time at the front of a word. A minute may have a leap second. -/
def afterTime? : List Char → Option (List Char)
  | h₁ :: h₂ :: ':' :: m₁ :: m₂ :: ':' :: s₁ :: s₂ :: rest => do
    let hour ← number? [h₁, h₂]
    let minute ← number? [m₁, m₂]
    let second ← number? [s₁, s₂]
    if 23 < hour ∨ 59 < minute ∨ 60 < second then none
    else match rest with
      | '.' :: d :: more => if d.isDigit then some (more.dropWhile Char.isDigit) else none
      | rest => some rest
  | _ => none

def isOffset : List Char → Bool
  | ['Z'] | ['z'] => true
  | [sign, h₁, h₂, ':', m₁, m₂] =>
    (sign == '+' || sign == '-') && (number? [h₁, h₂]).any (· ≤ 23) && (number? [m₁, m₂]).any (· ≤ 59)
  | _ => false

def isDate (word : List Char) : Bool :=
  afterDate? word == some []

def isMoment (word : List Char) : Bool :=
  match afterDate? word with
  | some [] => true
  | some (c :: rest) =>
    (c == 'T' || c == 't' || c == ' ') && (afterTime? rest).any fun r => r.isEmpty || isOffset r
  | none => afterTime? word == some []

def ofWord? (word : List Char) : Option Scalar :=
  if word = "true".toList then some (.boolean true)
  else if word = "false".toList then some (.boolean false)
  else match integer? word with
    | some n => some (.integer n)
    | none =>
      if isFloat word then some (.float (String.ofList word))
      else if isMoment word then some (.moment (String.ofList word))
      else none

end Scalar
end StyleFeed.Toml
