import StyleFeed.Text.Utf8

/-!
Number literals: when the value of one is beyond the range of a 64-bit binary floating point number.

The value is formed from as many leading digits as fit 64 bits and a power of ten; both are rounded to
53 significant bits before they are multiplied.
-/

namespace StyleFeed.Json.Numeral

/-- The nearest number of at most 53 significant bits; a tie goes to the even one. -/
def round (n : Nat) : Nat :=
  if n < Nat.pow 2 53 then n
  else
    let unit := Nat.pow 2 (n.log2 - 52)
    let q := n / unit
    let r := n % unit
    if r * 2 > unit ∨ (r * 2 = unit ∧ q % 2 = 1) then (q + 1) * unit else q * unit

/-- The least number that is rounded to infinity. -/
def infinity : Nat := Nat.pow 2 1024 - Nat.pow 2 970

/-- The largest number of leading digits that fit 64 bits, and what is left of the digits. -/
def leading (n : Nat) : List Nat → Nat × List Nat
  | [] => (n, [])
  | d :: ds => if n * 10 + d < Nat.pow 2 64 then leading (n * 10 + d) ds else (n, d :: ds)

def digitsOf (b : Bytes) : List Nat :=
  b.map fun d => d.toNat - 0x30

/-- A literal as significand and exponent of ten. -/
def parts (literal : Bytes) : Nat × Int :=
  let isDigit (b : UInt8) : Bool := 0x30 ≤ b && b ≤ 0x39
  let unsigned := literal.dropWhile (· == 0x2d)
  let whole := digitsOf (unsigned.takeWhile isDigit)
  let afterWhole := unsigned.dropWhile isDigit
  let fraction := match afterWhole with
    | 0x2e :: r => digitsOf (r.takeWhile isDigit)
    | _ => []
  let power := (afterWhole.dropWhile fun b => b == 0x2e || isDigit b).drop 1
  let exponent : Nat := (digitsOf (power.filter isDigit)).foldl (fun (n d : Nat) => n * 10 + d) 0
  let (n, dropped) := leading 0 whole
  let (significand, unread) := leading n fraction
  let given : Int := if power.head? = some 0x2d then -exponent else exponent
  (significand, given + dropped.length + unread.length - fraction.length)

/-- The literal stands for no finite number. -/
def overflows (literal : Bytes) : Bool :=
  let (significand, exponent) := parts literal
  significand ≠ 0 && (308 < exponent ||
    (0 ≤ exponent && infinity ≤ round significand * round (Nat.pow 10 exponent.toNat)))

end StyleFeed.Json.Numeral
