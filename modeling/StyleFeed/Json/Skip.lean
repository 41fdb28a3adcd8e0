import StyleFeed.Json.Value

/-!
Passing over one value whose content is of no interest. Only its form is looked at: texts need not be
UTF-8, code units need not pair up, and a number may have any size.
-/

namespace StyleFeed.Json

/-- Whether a list or an object is open. -/
inductive Bracket
  | list
  | object
deriving DecidableEq

open Value (Expected)

/-- What is wrong where no token of the expected sort stands. A number that is cut short counts as malformed. -/
def Lexeme.flaw : Lexeme → Flaw
  | .broken (.text _) flaw | .broken .word flaw => flaw
  | _ => .malformed

/-- The tokens after the value, which goes on inside the open brackets. -/
def skipFrom : Expected → List Bracket → List Token → Except Flaw (List Token)
  | _, _, [] => .error .cut
  | e, opened, t :: ts =>
    let complete (outer : List Bracket) : Except Flaw (List Token) :=
      match outer with
      | [] => .ok ts
      | b :: outer => skipFrom .more (b :: outer) ts
    let value : Except Flaw (List Token) :=
      match t.lexeme with
      | .beginArray => skipFrom .itemOrEnd (.list :: opened) ts
      | .beginObject => skipFrom .keyOrEnd (.object :: opened) ts
      | .text _ | .number _ | .word _ => complete opened
      | other => .error other.flaw
    let key : Except Flaw (List Token) :=
      match t.lexeme with
      | .text _ => skipFrom .colon opened ts
      | .broken (.text _) flaw => .error flaw
      | _ => .error .malformed
    match e, opened, t.lexeme with
    | .value, _, _ => value
    | .itemOrEnd, .list :: outer, .endArray => complete outer
    | .itemOrEnd, _, _ => value
    | .keyOrEnd, .object :: outer, .endObject => complete outer
    | .keyOrEnd, _, _ | .key, _, _ => key
    | .colon, _, .colon => skipFrom .value opened ts
    | .more, .list :: _, .comma => skipFrom .value opened ts
    | .more, .list :: outer, .endArray => complete outer
    | .more, .object :: _, .comma => skipFrom .key opened ts
    | .more, .object :: outer, .endObject => complete outer
    | _, _, _ => .error .malformed

def skip (ts : List Token) : Except Flaw (List Token) :=
  skipFrom .value [] ts

theorem length_skipFrom {e : Expected} {opened : List Bracket} {ts rest : List Token}
    (h : skipFrom e opened ts = .ok rest) : rest.length < ts.length := by
  induction ts generalizing e opened rest with
  | nil => simp [skipFrom] at h
  | cons t ts ih =>
    have into {e opened} (h : skipFrom e opened ts = .ok rest) : rest.length < (t :: ts).length :=
      Nat.lt_succ_of_lt (ih h)
    have complete (outer : List Bracket)
        (h : (match outer with
          | [] => Except.ok ts
          | b :: outer => skipFrom .more (b :: outer) ts) = .ok rest) :
        rest.length < (t :: ts).length := by
      cases outer with
      | nil => cases h; simp
      | cons b outer => exact into h
    unfold skipFrom at h
    simp only at h
    repeat' split at h
    all_goals first | exact into h | exact complete _ h | cases h
    all_goals simp

theorem length_skip {ts rest : List Token} (h : skip ts = .ok rest) : rest.length < ts.length :=
  length_skipFrom h

end StyleFeed.Json
