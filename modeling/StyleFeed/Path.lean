import StyleFeed.Text.Utf8

/-!
Paths as the system reports them: any bytes, seen as components. Comparison is by component, so that
`a//b`, `a/./b` and `a/b/` name one place; `..` is a component like another and is not resolved.
-/

namespace StyleFeed

def slash : UInt8 := 0x2f
def dot : UInt8 := 0x2e

/-- What an entry of a directory may be called. -/
def FileName.IsProper (b : Bytes) : Prop :=
  b ≠ [] ∧ slash ∉ b ∧ b ≠ [dot] ∧ b ≠ [dot, dot]

instance : DecidablePred FileName.IsProper := fun b =>
  inferInstanceAs (Decidable (b ≠ [] ∧ slash ∉ b ∧ b ≠ [dot] ∧ b ≠ [dot, dot]))

structure FileName where
  bytes : Bytes
  proper : FileName.IsProper bytes
deriving DecidableEq

namespace FileName

def ofBytes? (b : Bytes) : Option FileName :=
  if h : IsProper b then some ⟨b, h⟩ else none

theorem ofBytes?_eq_some_iff {b : Bytes} {n : FileName} : ofBytes? b = some n ↔ n.bytes = b := by
  cases n with | mk bytes proper =>
    unfold ofBytes?
    split
    · simp [eq_comm]
    · rename_i h
      simp only [reduceCtorEq, false_iff]
      rintro rfl
      exact h proper

/-- The name split at its last dot, for a dot that is not its first byte. -/
def splitAtDot? (n : FileName) : Option (Bytes × Bytes) :=
  match n.bytes.reverse.dropWhile (· != dot) with
  | _ :: before :: more =>
    some ((before :: more).reverse, (n.bytes.reverse.takeWhile (· != dot)).reverse)
  | _ => none

def extension? (n : FileName) : Option Bytes :=
  n.splitAtDot?.map Prod.snd

def stem (n : FileName) : Bytes :=
  n.splitAtDot?.elim n.bytes Prod.fst

def text (n : FileName) : String :=
  Utf8.lossy n.bytes

end FileName

inductive Component
  | root
  | here
  | parent
  | name (n : FileName)
deriving DecidableEq

namespace Component

/-- An empty segment and a single dot are no component of their own. -/
def ofSegment? (segment : Bytes) : Option Component :=
  if segment = [dot, dot] then some .parent else (FileName.ofBytes? segment).map .name

def fileName? : Component → Option FileName
  | .name n => some n
  | _ => none

end Component

structure Path where
  bytes : Bytes
deriving DecidableEq

namespace Path

def ofString (s : String) : Path := ⟨Utf8.encode s⟩

def text (p : Path) : String :=
  Utf8.lossy p.bytes

def isAbsolute (p : Path) : Bool :=
  p.bytes.head? == some slash

/-- What stands between the slashes, empty segments included. -/
def segments (p : Path) : List Bytes :=
  p.bytes.splitOn slash

/-- Only the dot that a relative path begins with is kept. -/
def start (p : Path) : List Component :=
  if p.isAbsolute then [.root] else if p.segments.head? = some [dot] then [.here] else []

def components (p : Path) : List Component :=
  p.start ++ p.segments.filterMap Component.ofSegment?

/-- The two paths name one place, whatever their spelling. -/
def same (p q : Path) : Bool :=
  p.components == q.components

theorem same_iff {p q : Path} : p.same q ↔ p.components = q.components := beq_iff_eq

/-- The components of `p` after those of `base`, if it begins with them. -/
def below? (p base : Path) : Option (List Component) :=
  base.components.isPrefixOf? p.components

/-- A path after this one; an absolute path stands for itself. -/
def join (p q : Path) : Path :=
  if q.isAbsolute then q
  else if p.bytes = [] ∨ p.bytes.getLast? = some slash then ⟨p.bytes ++ q.bytes⟩
  else ⟨p.bytes ++ slash :: q.bytes⟩

def child (p : Path) (n : FileName) : Path :=
  p.join ⟨n.bytes⟩

def extend (p : Path) (names : List FileName) : Path :=
  names.foldl child p

def ofComponents (cs : List Component) : Path :=
  cs.foldl (fun p c => match c with
    | .root => ⟨[slash]⟩
    | .here => p.join ⟨[dot]⟩
    | .parent => p.join ⟨[dot, dot]⟩
    | .name n => p.child n) ⟨[]⟩

/-- The path, then what it lies in, outward. -/
def ancestors (p : Path) : List Path :=
  p :: ((List.range p.components.length).map fun k => ofComponents (p.components.take k)).reverse

end Path
end StyleFeed
