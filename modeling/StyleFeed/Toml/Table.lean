import StyleFeed.Toml.Scalar

/-!
TOML tables. A table is written once: how it came to be decides by what it may still grow. One that a header
opened is not opened by another; one that dotted keys made grows by dotted keys; one that was only passed
on the way to another may still be opened; one in braces is closed.
-/

namespace StyleFeed.Toml

/-- How a table came to be. -/
inductive Origin
  | braces
  | header
  /-- Named only on the way to another table. -/
  | passed
  | dotted
deriving DecidableEq, Repr

inductive Item
  | scalar (s : Scalar)
  | string (s : String)
  | array (items : List Item)
  | table (origin : Origin) (entries : List (String × Item))
  /-- An array that headers open table by table. -/
  | tables (elements : List (List (String × Item)))

abbrev Entries := List (String × Item)

namespace Entries

def replace (es : Entries) (key : String) (item : Item) : Entries :=
  es.map fun e => if e.1 = key then (key, item) else e

/-- Goes down a path to a table and changes its entries; tables that are missing on the way are made.
Only a dotted key may not pass a table that a header opened. -/
def update (made : Origin) (change : Origin → Entries → Option Entries) :
    List String → Origin → Entries → Option Entries
  | [], origin, es => change origin es
  | key :: path, _, es =>
    match es.lookup key with
    | none => do return es ++ [(key, .table made (← update made change path made []))]
    | some (.table origin inner) =>
      if origin = .braces ∨ (made = .dotted ∧ origin = .header) then none
      else do return es.replace key (.table origin (← update made change path origin inner))
    | some (.tables elements) => do
      let last ← elements.getLast?
      return es.replace key (.tables (elements.dropLast ++ [← update made change path .header last]))
    | some _ => none

/-- Adds an entry under a dotted key: the names on the way, and the last. Its table is this one, or one that
dotted keys made. -/
def add (path : List String) (key : String) (item : Item) (origin : Origin) (es : Entries) :
    Option Entries :=
  update .dotted (fun reached es =>
    if path ≠ [] ∧ reached ≠ .dotted then none
    else if (es.lookup key).isSome then none
    else some (es ++ [(key, item)])) path origin es

/-- Opens the table of a header. -/
def openTable (path : List String) (key : String) (es : Entries) : Option Entries :=
  update .passed (fun _ es =>
    match es.lookup key with
    | none => some (es ++ [(key, .table .header [])])
    | some (.table .passed inner) => some (es.replace key (.table .header inner))
    | some _ => none) path .header es

/-- Opens one more table in the array of a header. -/
def openElement (path : List String) (key : String) (es : Entries) : Option Entries :=
  update .passed (fun _ es =>
    match es.lookup key with
    | none => some (es ++ [(key, .tables [[]])])
    | some (.tables elements) => some (es.replace key (.tables (elements ++ [[]])))
    | some _ => none) path .header es

/-- Adds an entry to the table that the last header opened. -/
def addBelow (header : List String) (path : List String) (key : String) (item : Item) (es : Entries) :
    Option Entries :=
  update .passed (add path key item) header .header es

end Entries
end StyleFeed.Toml
