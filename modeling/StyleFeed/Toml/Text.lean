/-!
The parts of TOML that are read character by character: blanks and comments, line ends, quoted strings. A
reader gives what it has read and the rest; that the rest is shorter is what lets readers be repeated.
-/

namespace StyleFeed.Toml

def isBlank (c : Char) : Bool := c == ' ' || c == '\t'

/-- May stand in a comment or a literal string: anything but a control character other than the tab. -/
def isVisible (c : Char) : Bool := c == '\t' || (' ' ≤ c && c != '\x7f')

def skipBlanks (cs : List Char) : List Char := cs.dropWhile isBlank

theorem length_skipBlanks (cs : List Char) : (skipBlanks cs).length ≤ cs.length :=
  (List.dropWhile_suffix isBlank).length_le

/-- What follows the end of a line; the text may end there. -/
def afterLine? : List Char → Option (List Char)
  | [] => some []
  | '\n' :: cs => some cs
  | '\r' :: '\n' :: cs => some cs
  | _ => none

theorem length_afterLine? {cs rest : List Char} (h : afterLine? cs = some rest) :
    rest.length ≤ cs.length := by
  unfold afterLine? at h
  split at h <;> cases h
  · exact Nat.le_refl 0
  · exact Nat.le_succ _
  · exact Nat.le_add_right _ 2

def skipComment : List Char → List Char
  | '#' :: cs => cs.dropWhile isVisible
  | cs => cs

theorem length_skipComment (cs : List Char) : (skipComment cs).length ≤ cs.length := by
  unfold skipComment
  split
  · exact Nat.le_succ_of_le (List.dropWhile_suffix isVisible).length_le
  · exact Nat.le_refl _

/-- What follows a line of which nothing is left but blanks and a comment. -/
def endLine? (cs : List Char) : Option (List Char) :=
  afterLine? (skipComment (skipBlanks cs))

theorem length_endLine? {cs rest : List Char} (h : endLine? cs = some rest) :
    rest.length ≤ cs.length :=
  Nat.le_trans (length_afterLine? h) (Nat.le_trans (length_skipComment _) (length_skipBlanks cs))

theorem length_emptyLine {c : Char} {cs rest : List Char} (hc : c = '\n' ∨ c = '\r' ∨ c = '#')
    (h : afterLine? (skipComment (c :: cs)) = some rest) : rest.length < (c :: cs).length := by
  rcases hc with rfl | rfl | rfl
  · cases h
    exact Nat.lt_succ_self _
  · simp only [skipComment] at h
    unfold afterLine? at h
    split at h <;> cases h <;> grind
  · exact Nat.lt_succ_of_le (Nat.le_trans (length_afterLine? h) (List.dropWhile_suffix isVisible).length_le)

/-- Passes blanks, line ends and comments; `inComment` says that a comment has begun. -/
def skipGap (inComment : Bool) : List Char → List Char
  | [] => []
  | c :: cs =>
    if inComment && isVisible c then skipGap true cs
    else if c = '\n' ∨ (c = '\r' ∧ cs.head? = some '\n') then skipGap false cs
    else if inComment then c :: cs
    else if isBlank c then skipGap false cs
    else if c = '#' then skipGap true cs
    else c :: cs

theorem length_skipGap (inComment : Bool) (cs : List Char) :
    (skipGap inComment cs).length ≤ cs.length := by
  fun_induction skipGap inComment cs <;> simp_all <;> omega

/-! Strings. What is read stands in reverse. -/

def escaped? : Char → Option Char
  | 'b' => some '\x08'
  | 't' => some '\t'
  | 'n' => some '\n'
  | 'f' => some '\x0c'
  | 'r' => some '\r'
  | '"' => some '"'
  | '\\' => some '\\'
  | _ => none

def hexDigit? (c : Char) : Option Nat :=
  if c.isDigit then some (c.toNat - '0'.toNat)
  else if 'a' ≤ c ∧ c ≤ 'f' then some (c.toNat - 'a'.toNat + 10)
  else if 'A' ≤ c ∧ c ≤ 'F' then some (c.toNat - 'A'.toNat + 10)
  else none

/-- The character of a code point in hexadecimal; there is none for a surrogate. -/
def codePoint? (digits : List Char) : Option Char := do
  let n ← digits.foldlM (fun n c => (hexDigit? c).map (n * 16 + ·)) 0
  if n.isValidChar then some (Char.ofNat n) else none

/-- A basic string on one line, after its opening quote. -/
def readBasic (read : List Char) : List Char → Option (String × List Char)
  | '"' :: cs => some (String.ofList read.reverse, cs)
  | '\\' :: 'u' :: a :: b :: c :: d :: cs => do readBasic ((← codePoint? [a, b, c, d]) :: read) cs
  | '\\' :: 'U' :: a :: b :: c :: d :: e :: f :: g :: h :: cs => do
    readBasic ((← codePoint? [a, b, c, d, e, f, g, h]) :: read) cs
  | '\\' :: c :: cs => do readBasic ((← escaped? c) :: read) cs
  | c :: cs => if isVisible c then readBasic (c :: read) cs else none
  | [] => none

/-- A literal string on one line, after its opening quote. -/
def readLiteral (read : List Char) : List Char → Option (String × List Char)
  | '\'' :: cs => some (String.ofList read.reverse, cs)
  | c :: cs => if isVisible c then readLiteral (c :: read) cs else none
  | [] => none

/-- A basic string over lines, after its opening quotes. Up to two quotes may stand before the closing ones.
A backslash before a line end takes away all blanks and line ends that follow; `trimming` says that it is
at it. -/
def readBasicLines (trimming : Bool) (read : List Char) : List Char → Option (String × List Char)
  | '"' :: '"' :: '"' :: '"' :: '"' :: cs => some (String.ofList ('"' :: '"' :: read).reverse, cs)
  | '"' :: '"' :: '"' :: '"' :: cs => some (String.ofList ('"' :: read).reverse, cs)
  | '"' :: '"' :: '"' :: cs => some (String.ofList read.reverse, cs)
  | '\\' :: 'u' :: a :: b :: c :: d :: cs => do
    readBasicLines false ((← codePoint? [a, b, c, d]) :: read) cs
  | '\\' :: 'U' :: a :: b :: c :: d :: e :: f :: g :: h :: cs => do
    readBasicLines false ((← codePoint? [a, b, c, d, e, f, g, h]) :: read) cs
  | '\\' :: c :: cs =>
    match escaped? c with
    | some e => readBasicLines false (e :: read) cs
    | none =>
      match skipBlanks (c :: cs) with
      | '\n' :: _ | '\r' :: '\n' :: _ => readBasicLines true read (c :: cs)
      | _ => none
  | '\r' :: '\n' :: cs => readBasicLines trimming (if trimming then read else '\n' :: read) cs
  | c :: cs =>
    if trimming && (isBlank c || c == '\n') then readBasicLines true read cs
    else if c = '\n' ∨ isVisible c then readBasicLines false (c :: read) cs
    else none
  | [] => none

/-- A literal string over lines, after its opening quotes. -/
def readLiteralLines (read : List Char) : List Char → Option (String × List Char)
  | '\'' :: '\'' :: '\'' :: '\'' :: '\'' :: cs => some (String.ofList ('\'' :: '\'' :: read).reverse, cs)
  | '\'' :: '\'' :: '\'' :: '\'' :: cs => some (String.ofList ('\'' :: read).reverse, cs)
  | '\'' :: '\'' :: '\'' :: cs => some (String.ofList read.reverse, cs)
  | '\r' :: '\n' :: cs => readLiteralLines ('\n' :: read) cs
  | c :: cs => if c = '\n' ∨ isVisible c then readLiteralLines (c :: read) cs else none
  | [] => none

/-- A line end right after the opening quotes is not part of the string. -/
def skipFirstLineEnd : List Char → List Char
  | '\n' :: cs => cs
  | '\r' :: '\n' :: cs => cs
  | cs => cs

/-- A quoted string of any sort. -/
def readString : List Char → Option (String × List Char)
  | '"' :: '"' :: '"' :: cs => readBasicLines false [] (skipFirstLineEnd cs)
  | '"' :: cs => readBasic [] cs
  | '\'' :: '\'' :: '\'' :: cs => readLiteralLines [] (skipFirstLineEnd cs)
  | '\'' :: cs => readLiteral [] cs
  | _ => none

theorem length_readBasic {read cs rest : List Char} {s : String}
    (h : readBasic read cs = some (s, rest)) : rest.length < cs.length := by
  fun_induction readBasic read cs <;> simp_all [Option.bind_eq_some_iff] <;> grind

theorem length_readLiteral {read cs rest : List Char} {s : String}
    (h : readLiteral read cs = some (s, rest)) : rest.length < cs.length := by
  fun_induction readLiteral read cs with
  | case1 =>
    cases h
    exact Nat.lt_succ_self _
  | case2 _ _ _ _ _ ih => exact Nat.lt_succ_of_lt (ih h)
  | case3 => cases h
  | case4 => cases h

theorem length_readBasicLines {trimming : Bool} {read cs rest : List Char} {s : String}
    (h : readBasicLines trimming read cs = some (s, rest)) : rest.length < cs.length := by
  fun_induction readBasicLines trimming read cs <;> simp_all [Option.bind_eq_some_iff] <;> grind

theorem length_readLiteralLines {read cs rest : List Char} {s : String}
    (h : readLiteralLines read cs = some (s, rest)) : rest.length < cs.length := by
  fun_induction readLiteralLines read cs <;> simp_all <;> grind

theorem length_skipFirstLineEnd (cs : List Char) : (skipFirstLineEnd cs).length ≤ cs.length := by
  unfold skipFirstLineEnd
  split
  · exact Nat.le_succ _
  · exact Nat.le_add_right _ 2
  · exact Nat.le_refl _

theorem length_readString {cs rest : List Char} {s : String}
    (h : readString cs = some (s, rest)) : rest.length < cs.length := by
  unfold readString at h
  split at h
  · rename_i cs
    have := length_readBasicLines h
    have := length_skipFirstLineEnd cs
    simp only [List.length_cons]
    omega
  · have := length_readBasic h
    simp only [List.length_cons]
    omega
  · rename_i cs
    have := length_readLiteralLines h
    have := length_skipFirstLineEnd cs
    simp only [List.length_cons]
    omega
  · have := length_readLiteral h
    simp only [List.length_cons]
    omega
  · cases h

end StyleFeed.Toml
