import StyleFeed.Fallible
import StyleFeed.Json.Skip
import StyleFeed.Message.Basic

/-!
Reading a message. The text is read strictly from left to right and the first thing that is wrong decides:
it ends too early, it is no JSON, or it is JSON of the wrong shape. Fields that a message does not have
are passed over; the fields of a message may also stand in order in a list.
-/

namespace StyleFeed.Message

open Json (Token Lexeme Flaw)

inductive Refusal
  /-- Well-formed so far, but of another shape than a message. -/
  | shape
  | malformed
  /-- The text ends too early. -/
  | cut
deriving DecidableEq, Repr

def Refusal.ofFlaw : Flaw → Refusal
  | .malformed => .malformed
  | .cut => .cut

/-- Where a text is looked at: what it says, or why it says nothing. -/
def readUnits (units : List Json.TextUnit) : Except Refusal String :=
  match Json.Value.strict? units with
  | some s => .ok s
  | none => .error .malformed

/-- A text that is not closed. A code unit that is already known to be unpaired comes before its end. -/
def readBroken (units : List Json.TextUnit) (flaw : Flaw) : Refusal :=
  if Json.spell units = .unpaired then .malformed else .ofFlaw flaw

/-- Why no value of the wanted sort begins here. A value of another sort is read before it is refused,
up to its first bracket. -/
def mismatch : Lexeme → Refusal
  | .beginObject | .beginArray | .word _ => .shape
  | .number literal => if Json.Numeral.overflows literal then .malformed else .shape
  | .text units =>
    match readUnits units with
    | .ok _ => .shape
    | .error e => e
  | .broken (.text units) flaw => readBroken units flaw
  | .broken _ flaw => .ofFlaw flaw
  | .endObject | .endArray | .comma | .colon | .stray => .malformed

def readText : Lexeme → Except Refusal String
  | .text units => readUnits units
  | other => .error (mismatch other)

/-- Takes the one lexeme that may stand here. -/
def expect (wanted : Lexeme) : List Token → Except Refusal (List Token)
  | [] => .error .cut
  | t :: ts => if t.lexeme = wanted then .ok ts else .error .malformed

theorem length_expect {wanted : Lexeme} {ts rest : List Token} (h : expect wanted ts = .ok rest) :
    rest.length < ts.length := by
  unfold expect at h
  split at h
  · cases h
  · split at h
    · cases h; simp
    · cases h

/-- Takes a text. -/
def takeText : List Token → Except Refusal (String × List Token)
  | [] => .error .cut
  | t :: ts => do return (← readText t.lexeme, ts)

theorem length_takeText {ts rest : List Token} {s : String} (h : takeText ts = .ok (s, rest)) :
    rest.length < ts.length := by
  cases ts with
  | nil => cases h
  | cons t ts =>
    obtain ⟨text, -, h⟩ := exists_of_bind_eq_ok h
    cases h
    simp

/-- Takes the name of a field, after which its value follows. -/
def takeKey : List Token → Except Refusal (String × List Token)
  | [] => .error .cut
  | t :: ts =>
    match t.lexeme with
    | .text _ | .broken (.text _) _ => do return (← readText t.lexeme, ts)
    | _ => .error .malformed

theorem length_takeKey {ts rest : List Token} {s : String} (h : takeKey ts = .ok (s, rest)) :
    rest.length < ts.length := by
  unfold takeKey at h
  split at h
  · cases h
  · split at h
    · obtain ⟨text, -, h⟩ := exists_of_bind_eq_ok h
      cases h
      simp
    · obtain ⟨text, -, h⟩ := exists_of_bind_eq_ok h
      cases h
      simp
    · cases h

/-- One field of an object. A field of the message may stand there once; any other is passed over. -/
def takeField (names : List String) (held : List (String × String)) (ts : List Token) :
    Except Refusal (List (String × String) × List Token) := do
  let (key, ts) ← takeKey ts
  if key ∈ names then
    if (held.lookup key).isSome then .error .shape
    else
      let (value, ts) ← takeText (← expect .colon ts)
      .ok (held ++ [(key, value)], ts)
  else
    match Json.skip (← expect .colon ts) with
    | .ok ts => .ok (held, ts)
    | .error flaw => .error (.ofFlaw flaw)

theorem length_takeField {names : List String} {held held' : List (String × String)}
    {ts rest : List Token} (h : takeField names held ts = .ok (held', rest)) :
    rest.length < ts.length := by
  obtain ⟨⟨key, afterKey⟩, taken, h⟩ := exists_of_bind_eq_ok h
  have := length_takeKey taken
  simp only at h
  split at h
  · split at h
    · cases h
    · obtain ⟨afterColon, colon, h⟩ := exists_of_bind_eq_ok h
      obtain ⟨⟨value, after⟩, text, h⟩ := exists_of_bind_eq_ok h
      have := length_expect colon
      have := length_takeText text
      cases h
      show after.length < ts.length
      omega
  · obtain ⟨afterColon, colon, h⟩ := exists_of_bind_eq_ok h
    have := length_expect colon
    split at h
    · rename_i skipped
      have := Json.length_skip skipped
      cases h
      omega
    · cases h

/-- A comma comes before every field and item but the first. -/
def takeSeparator (first : Bool) (ts : List Token) : Except Refusal (List Token) :=
  if first then .ok ts else expect .comma ts

theorem length_takeSeparator {first : Bool} {ts rest : List Token}
    (h : takeSeparator first ts = .ok rest) : rest.length ≤ ts.length := by
  unfold takeSeparator at h
  split at h
  · cases h; exact Nat.le_refl _
  · exact Nat.le_of_lt (length_expect h)

/-- The fields of an object and what follows it. -/
def readFields (names : List String) (first : Bool) (held : List (String × String)) :
    List Token → Except Refusal (List (String × String) × List Token)
  | [] => .error .cut
  | t :: ts =>
    if t.lexeme = .endObject then .ok (held, ts)
    else
      match _hs : takeSeparator first (t :: ts) with
      | .error e => .error e
      | .ok after =>
        match _hf : takeField names held after with
        | .error e => .error e
        | .ok (held, rest) => readFields names false held rest
termination_by ts => ts.length
decreasing_by
  have := length_takeSeparator _hs
  have := length_takeField _hf
  omega

/-- The items of a list, one for each field, and what follows it. -/
def readItems (names : List String) (first : Bool) (ts : List Token) :
    Except Refusal (List (String × String) × List Token) :=
  match names with
  | [] => do return ([], ← expect .endArray ts)
  | name :: names =>
    match ts with
    | [] => .error .cut
    | t :: rest =>
      if t.lexeme = .endArray then .error .shape
      else do
        let (value, ts) ← takeText (← takeSeparator first (t :: rest))
        let (held, ts) ← readItems names false ts
        return ((name, value) :: held, ts)

/-- The fields of a message, as an object or as a list. -/
def readBody (names : List String) : List Token → Except Refusal (List (String × String) × List Token)
  | [] => .error .cut
  | t :: ts =>
    match t.lexeme with
    | .beginObject => readFields names true [] ts
    | .beginArray => readItems names true ts
    | other => .error (mismatch other)

def readKind (label : String) : Except Refusal Kind :=
  (Kind.ofLabel? label).elim (.error .shape) .ok

/-- A message as an object with one field, and what follows it. -/
def readTagged (ts : List Token) : Except Refusal (Message × List Token) := do
  let (label, ts) ← takeText ts
  let kind ← readKind label
  let (held, ts) ← readBody kind.fields (← expect .colon ts)
  match kind.fields.mapM (held.lookup ·) >>= ofValues? kind with
  | none => .error .shape
  | some m => return (m, ← expect .endObject ts)

def ofTokens (ts : List Token) : Except Refusal Message :=
  match ts with
  | [] => .error .cut
  | t :: ts =>
    match t.lexeme with
    | .beginObject => do
      match ← readTagged ts with
      | (m, []) => .ok m
      | (_, _ :: _) => .error .malformed
    | .text units => do
      let _ ← readUnits units
      .error .shape
    | .broken (.text units) flaw => .error (readBroken units flaw)
    | _ => .error .malformed

/-- The message that a text holds. -/
def parse (text : Bytes) : Except Refusal Message :=
  ofTokens (Token.scan text)

end StyleFeed.Message
