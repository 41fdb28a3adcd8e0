import StyleFeed.Sheet
import StyleFeed.Tree.Resolve

/-!
The style sheets of a tree. The walk goes down real directories only, and into none that is called `.git`;
a link is followed where the walk begins and nowhere below.
-/

namespace StyleFeed.Tree

/-- The routes from `r` to the files below it that are at most `depth` names long. -/
def filesWithin (t : Tree) : Nat → Route → List Route
  | 0, _ => []
  | depth + 1, r =>
    ((t.children r).filter (·.1 ≠ .git)).flatMap fun (n, e) =>
      match e with
      | .file _ => [[n]]
      | .link _ => []
      | .directory => (t.filesWithin depth (r ++ [n])).map (n :: ·)

/-- The routes from where a path leads to the files there; the empty route if that is a file itself. -/
def walk (t : Tree) (dir : Path) : List Route :=
  match t.resolve dir with
  | .ok (r, .directory) => t.filesWithin t.height r
  | .ok (_, .file _) => [[]]
  | _ => []

/-- The routes from a path to the style sheets at and below it. -/
def sheetRoutes (t : Tree) (root : Root) (dir : Path) : List Route :=
  (t.walk dir).filter fun r => root.isSheet (dir.extend r)

def sheets (t : Tree) (root : Root) (dir : Path) : List Path :=
  (t.sheetRoutes root dir).map dir.extend

end StyleFeed.Tree
