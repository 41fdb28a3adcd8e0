import StyleFeed.Path

/-!
What the system says about the watched tree, and what is made of it: changes of single paths, and the call
for a new scan.
-/

namespace StyleFeed

/-- Which side of a rename a signal speaks of. -/
inductive Signal.Side
  | departed
  | arrived
  | both
  | unknown
deriving DecidableEq, Repr

inductive Signal.Kind
  | access
  | create
  | removeFolder
  /-- The removal of anything but a folder. -/
  | remove
  | rename (side : Signal.Side)
  | metadata
  /-- Any other modification. -/
  | modify
  | unknown
deriving DecidableEq, Repr

structure Signal where
  kind : Signal.Kind
  paths : List Path
  /-- What the two sides of one rename have in common. -/
  tracker : Option Nat
  /-- Signals may have been lost. -/
  lossy : Bool
deriving DecidableEq

/-- A change of the tree. Both ends of a move lie in the watched tree. -/
inductive Change
  | created (path : Path)
  | deleted (path : Path)
  | modified (path : Path)
  | moved (src dest : Path)
deriving DecidableEq

inductive Event
  | change (c : Change)
  | rescan
deriving DecidableEq

end StyleFeed
