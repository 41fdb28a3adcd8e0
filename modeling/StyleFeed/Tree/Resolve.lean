import StyleFeed.Fault
import StyleFeed.Tree.Basic

/-!
Where a path leads in a tree. Links are followed, also at the end; a path that leads through too many of
them, as one in a loop does, leads nowhere. What follows a name needs a directory there, so that `a/`
and `a/.` lead nowhere when `a` is a file.
-/

namespace StyleFeed.Tree

/-- Why a path leads nowhere. -/
inductive Missing
  | absent
  | notDirectory
deriving DecidableEq, Repr

/-- How many links a path may lead through. -/
def linkLimit : Nat := 40

/-- Goes down the segments from a route, up to the first link, from which `follow` goes on. The last
segment may be a name that is still free. -/
def descend (t : Tree) (follow : Route → Path → List Bytes → Except Missing Route) :
    Route → List Bytes → Except Missing Route
  | r, [] => .ok r
  | r, s :: rest =>
    if !t.isDirectoryAt r then .error .notDirectory
    else if s = [dot, dot] then descend t follow r.dropLast rest
    else
      match FileName.ofBytes? s with
      | none => descend t follow r rest
      | some n =>
        match t.lookup? (r ++ [n]) with
        | none => if rest = [] then .ok (r ++ [n]) else .error .absent
        | some (.link target) => follow r target rest
        | some _ => descend t follow (r ++ [n]) rest

/-- Where a path begins that is met in the directory at `r`. -/
def origin (r : Route) (p : Path) : Route :=
  if p.isAbsolute then [] else r

/-- Follows a link and goes down the rest, through no more than the given number of further links. -/
def follow (t : Tree) : Nat → Route → Path → List Bytes → Except Missing Route
  | 0, _, _, _ => .error .absent
  | links + 1, r, target, rest =>
    descend t (follow t links) (origin r target) (target.segments ++ rest)

def hasNul (p : Path) : Bool := p.bytes.contains 0

def locateSegments (t : Tree) (p : Path) (segments : List Bytes) : Except Missing Route :=
  descend t (t.follow linkLimit) (origin t.workplace p) segments

/-- The route that a path leads to, where there may be nothing yet. -/
def locate (t : Tree) (p : Path) : Except Missing Route :=
  if p.bytes = [] ∨ hasNul p then .error .absent else t.locateSegments p p.segments

/-- What a path leads to. -/
def resolve (t : Tree) (p : Path) : Except Missing (Route × Entry) := do
  let r ← t.locate p
  match t.lookup? r with
  | some e => .ok (r, e)
  | none => .error .absent

def Missing.fault : Missing → IoFault
  | .absent => .noEntry
  | .notDirectory => .notDirectory

def «exists» (t : Tree) (p : Path) : Bool :=
  (t.resolve p).isOk

def isDirectory (t : Tree) (p : Path) : Bool :=
  match t.resolve p with
  | .ok (_, .directory) => true
  | _ => false

/-- The content of the file that a path leads to. -/
def read (t : Tree) (p : Path) : Except IoFault Bytes :=
  if hasNul p then .error .nulInName
  else match t.resolve p with
    | .ok (_, .file content) => .ok content
    | .ok _ => .error .directory
    | .error m => .error m.fault

def readText (t : Tree) (p : Path) : Except IoFault String := do
  match Utf8.decode? (← t.read p) with
  | some s => .ok s
  | none => .error .notText

/-- The path without links and dots that leads to the same place. -/
def canonical (t : Tree) (p : Path) : Except IoFault Path :=
  if hasNul p then .error .nulInName
  else match t.resolve p with
    | .ok (r, _) => .ok (Path.extend ⟨[slash]⟩ r)
    | .error m => .error m.fault

end StyleFeed.Tree
