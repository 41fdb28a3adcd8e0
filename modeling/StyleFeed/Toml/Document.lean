import StyleFeed.Toml.Table
import StyleFeed.Toml.Text

/-!
TOML documents: keys, values, and the lines that put them into tables. A document is read whole or not at
all.
-/

namespace StyleFeed.Toml

/-- What was read of `cs`, and what is left. -/
structure Read (cs : List Char) (α : Type) where
  value : α
  rest : List Char
  shorter : rest.length < cs.length

abbrev Reader (α : Type) := (cs : List Char) → Option (Read cs α)

/-! Keys -/

def isBareKey (c : Char) : Bool := c.isAlphanum || c == '_' || c == '-'

/-- One part of a key: a bare word, or a string on one line. -/
def readKeyPart : Reader String := fun cs =>
  match cs with
  | [] => none
  | c :: r =>
    if c = '"' then
      match h : readBasic [] r with
      | some (s, rest) => some ⟨s, rest, Nat.lt_succ_of_lt (length_readBasic h)⟩
      | none => none
    else if c = '\'' then
      match h : readLiteral [] r with
      | some (s, rest) => some ⟨s, rest, Nat.lt_succ_of_lt (length_readLiteral h)⟩
      | none => none
    else if isBareKey c then
      some ⟨String.ofList (c :: r.takeWhile isBareKey), r.dropWhile isBareKey,
        Nat.lt_succ_of_le (List.dropWhile_suffix isBareKey).length_le⟩
    else none

/-- The parts of a dotted key, with blanks around them. -/
def readParts (cs : List Char) : Option (List String × List Char) :=
  match readKeyPart (skipBlanks cs) with
  | none => none
  | some part =>
    match _h : skipBlanks part.rest with
    | '.' :: r => do
      let (parts, rest) ← readParts r
      return (part.value :: parts, rest)
    | rest => some ([part.value], rest)
termination_by cs.length
decreasing_by
  have := part.shorter
  have := length_skipBlanks cs
  have after := length_skipBlanks part.rest
  simp only [_h, List.length_cons] at after
  omega

theorem length_readParts {cs rest : List Char} {parts : List String}
    (h : readParts cs = some (parts, rest)) : rest.length < cs.length := by
  fun_induction readParts cs generalizing parts rest with
  | case1 => cases h
  | case2 cs part _ r hr ih =>
    obtain ⟨⟨ps, rs⟩, hp, he⟩ := Option.bind_eq_some_iff.mp h
    have := ih hp
    have := part.shorter
    have := length_skipBlanks cs
    have after := length_skipBlanks part.rest
    cases he
    rw [hr, List.length_cons] at after
    omega
  | case3 cs part _ =>
    have := part.shorter
    have := length_skipBlanks cs
    have := length_skipBlanks part.rest
    cases h
    omega

/-- How deep keys may reach and values may nest. -/
def depthLimit : Nat := 79

/-- A key as the names on the way and the last name. -/
structure Key where
  path : List String
  last : String

def readKey : Reader Key := fun cs =>
  match h : readParts cs with
  | none => none
  | some (parts, rest) =>
    match parts.getLast? with
    | none => none
    | some last =>
      if depthLimit < parts.length then none
      else some ⟨⟨parts.dropLast, last⟩, rest, length_readParts h⟩

/-! Values -/

/-- May stand in a word, that is in a scalar without quotes. -/
def isWord (c : Char) : Bool :=
  c.isAlphanum || c == '_' || c == '+' || c == '-' || c == '.' || c == ':'

/-- A time may follow its date after one blank. -/
def joinTime (word after : List Char) : List Char × List Char :=
  match after with
  | ' ' :: d :: r =>
    if Scalar.isDate word && d.isDigit then (word ++ ' ' :: d :: r.takeWhile isWord, r.dropWhile isWord)
    else (word, after)
  | _ => (word, after)

theorem length_joinTime (word after : List Char) : (joinTime word after).2.length ≤ after.length := by
  unfold joinTime
  split
  · rename_i d r
    split
    · have := (List.dropWhile_suffix (l := r) isWord).length_le
      simp only [List.length_cons]
      omega
    · exact Nat.le_refl _
  · exact Nat.le_refl _

def readScalar : Reader Item := fun cs =>
  match cs with
  | [] => none
  | c :: r =>
    if isWord c then
      let joined := joinTime (c :: r.takeWhile isWord) (r.dropWhile isWord)
      (Scalar.ofWord? joined.1).map fun s =>
        ⟨.scalar s, joined.2,
          Nat.lt_succ_of_le (Nat.le_trans (length_joinTime _ _) (List.dropWhile_suffix isWord).length_le)⟩
    else none

/-- The items of an array, after its opening bracket. Line ends and comments may stand between them, and a
comma after the last. -/
def readItems (item : Reader Item) (cs : List Char) : Option (List Item × List Char) :=
  match skipGap false cs with
  | ']' :: r => some ([], r)
  | _ =>
    match item (skipGap false cs) with
    | none => none
    | some x =>
      match _h : skipGap false x.rest with
      | ',' :: r => do
        let (items, rest) ← readItems item r
        return (x.value :: items, rest)
      | ']' :: r => some ([x.value], r)
      | _ => none
termination_by cs.length
decreasing_by
  have := x.shorter
  have := length_skipGap false cs
  have after := length_skipGap false x.rest
  rw [_h, List.length_cons] at after
  omega

theorem length_readItems {item : Reader Item} {cs rest : List Char} {items : List Item}
    (h : readItems item cs = some (items, rest)) : rest.length < cs.length := by
  fun_induction readItems item cs generalizing items rest with
  | case1 cs r hr =>
    have after := length_skipGap false cs
    rw [hr, List.length_cons] at after
    cases h
    omega
  | case2 => cases h
  | case3 cs x _ r hr _ ih =>
    obtain ⟨⟨is, rs⟩, hp, he⟩ := Option.bind_eq_some_iff.mp h
    have := ih hp
    have := x.shorter
    have := length_skipGap false cs
    have after := length_skipGap false x.rest
    rw [hr, List.length_cons] at after
    cases he
    omega
  | case4 cs x _ r hr _ =>
    have := x.shorter
    have := length_skipGap false cs
    have after := length_skipGap false x.rest
    rw [hr, List.length_cons] at after
    cases h
    omega
  | case5 => cases h

/-- The entries of a table in braces, from its first key. -/
def readEntries (item : Reader Item) (cs : List Char) : Option (List (Key × Item) × List Char) :=
  match readKey cs with
  | none => none
  | some key =>
    match _hk : key.rest with
    | '=' :: afterKey =>
      match item (skipBlanks afterKey) with
      | none => none
      | some x =>
        match _hx : skipBlanks x.rest with
        | ',' :: more => do
          let (entries, rest) ← readEntries item more
          return ((key.value, x.value) :: entries, rest)
        | '}' :: rest => some ([(key.value, x.value)], rest)
        | _ => none
    | _ => none
termination_by cs.length
decreasing_by
  have before := key.shorter
  rw [_hk, List.length_cons] at before
  have := x.shorter
  have := length_skipBlanks afterKey
  have after := length_skipBlanks x.rest
  rw [_hx, List.length_cons] at after
  omega

theorem length_readEntries {item : Reader Item} {cs rest : List Char} {entries : List (Key × Item)}
    (h : readEntries item cs = some (entries, rest)) : rest.length < cs.length := by
  fun_induction readEntries item cs generalizing entries rest with
  | case1 => cases h
  | case2 => cases h
  | case3 cs key _ r he x _ r' hr ih =>
    obtain ⟨⟨es, rs⟩, hp, heq⟩ := Option.bind_eq_some_iff.mp h
    have := ih hp
    have before := key.shorter
    rw [he, List.length_cons] at before
    have := x.shorter
    have := length_skipBlanks r
    have after := length_skipBlanks x.rest
    rw [hr, List.length_cons] at after
    cases heq
    omega
  | case4 cs key _ r he x _ r' hr =>
    have before := key.shorter
    rw [he, List.length_cons] at before
    have := x.shorter
    have := length_skipBlanks r
    have after := length_skipBlanks x.rest
    rw [hr, List.length_cons] at after
    cases h
    omega
  | case5 => cases h
  | case6 => cases h

/-- The entries of a table in braces, after the opening one. -/
def readBraces (item : Reader Item) (cs : List Char) : Option (List (Key × Item) × List Char) :=
  match skipBlanks cs with
  | '}' :: r => some ([], r)
  | _ => readEntries item cs

theorem length_readBraces {item : Reader Item} {cs rest : List Char} {entries : List (Key × Item)}
    (h : readBraces item cs = some (entries, rest)) : rest.length < cs.length := by
  unfold readBraces at h
  split at h
  · rename_i r hr
    have after := length_skipBlanks cs
    rw [hr, List.length_cons] at after
    cases h
    omega
  · exact length_readEntries h

/-- The table of the entries, if no two of them are at odds. -/
def tableOf? (entries : List (Key × Item)) : Option Entries :=
  entries.foldlM (fun es (key, x) => es.add key.path key.last x .braces) []

/-- A value in which arrays and tables nest at most `depth` deep. -/
def readValue (depth : Nat) : Reader Item := fun cs =>
  match cs with
  | [] => none
  | c :: r =>
    if c = '"' ∨ c = '\'' then
      match h : readString (c :: r) with
      | some (s, rest) => some ⟨.string s, rest, length_readString h⟩
      | none => none
    else if c = '[' then
      match depth with
      | 0 => none
      | depth + 1 =>
        match h : readItems (readValue depth) r with
        | some (items, rest) => some ⟨.array items, rest, Nat.lt_succ_of_lt (length_readItems h)⟩
        | none => none
    else if c = '{' then
      match depth with
      | 0 => none
      | depth + 1 =>
        match h : readBraces (readValue depth) r with
        | some (entries, rest) =>
          (tableOf? entries).map fun es =>
            ⟨.table .braces es, rest, Nat.lt_succ_of_lt (length_readBraces h)⟩
        | none => none
    else readScalar (c :: r)

/-! Lines -/

/-- What a line says. -/
inductive Line
  | entry (key : Key) (item : Item)
  | table (key : Key)
  | element (key : Key)

/-- One line that is not blank, with the end of the line. -/
def readLine : Reader Line := fun cs =>
  match hc : cs with
  | '[' :: '[' :: r =>
    match readKey r with
    | none => none
    | some key =>
      match hk : key.rest with
      | ']' :: ']' :: r' =>
        match h : endLine? r' with
        | none => none
        | some rest => some ⟨.element key.value, rest, by
            have before := key.shorter
            have := length_endLine? h
            simp only [hk, List.length_cons] at before ⊢
            omega⟩
      | _ => none
  | '[' :: r =>
    match readKey r with
    | none => none
    | some key =>
      match hk : key.rest with
      | ']' :: r' =>
        match h : endLine? r' with
        | none => none
        | some rest => some ⟨.table key.value, rest, by
            have before := key.shorter
            have := length_endLine? h
            simp only [hk, List.length_cons] at before ⊢
            omega⟩
      | _ => none
  | _ =>
    match readKey cs with
    | none => none
    | some key =>
      match hk : key.rest with
      | '=' :: r =>
        match readValue depthLimit (skipBlanks r) with
        | none => none
        | some x =>
          match h : endLine? x.rest with
          | none => none
          | some rest => some ⟨.entry key.value x.value, rest, by
              have before := key.shorter
              have := x.shorter
              have := length_skipBlanks r
              have := length_endLine? h
              simp only [hk, List.length_cons] at before
              subst hc
              omega⟩
      | _ => none

/-- A document as it is read: the entries so far, and the header that the next ones stand under. -/
structure Reading where
  header : List String
  entries : Entries

namespace Reading

def start : Reading := ⟨[], []⟩

def take (d : Reading) : Line → Option Reading
  | .entry key item => do
    return { d with entries := ← d.entries.addBelow d.header key.path key.last item }
  | .table key => do
    return ⟨key.path ++ [key.last], ← d.entries.openTable key.path key.last⟩
  | .element key => do
    return ⟨key.path ++ [key.last], ← d.entries.openElement key.path key.last⟩

/-- Takes all lines. -/
def takeAll (d : Reading) (cs : List Char) : Option Reading :=
  match _hb : skipBlanks cs with
  | [] => some d
  | c :: r =>
    if _hn : c = '\n' ∨ c = '\r' ∨ c = '#' then
      match _h : afterLine? (skipComment (c :: r)) with
      | none => none
      | some rest => d.takeAll rest
    else
      match readLine (c :: r) with
      | none => none
      | some line =>
        match d.take line.value with
        | none => none
        | some d => d.takeAll line.rest
termination_by cs.length
decreasing_by
  all_goals
    have below := length_skipBlanks cs
    rw [_hb] at below
  · exact Nat.lt_of_lt_of_le (length_emptyLine _hn _h) below
  · exact Nat.lt_of_lt_of_le line.shorter below

end Reading

/-- The entries of a document. A byte order mark may stand before it. -/
def parse (text : String) : Option Entries :=
  let cs := match text.toList with
    | '\ufeff' :: cs => cs
    | cs => cs
  (Reading.start.takeAll cs).map Reading.entries

end StyleFeed.Toml
