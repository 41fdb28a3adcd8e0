import StyleFeed.Clock
import StyleFeed.Signal
import StyleFeed.Tree.Resolve

/-!
Pairing the sides of renames. A path that departed is held until the other side with the same tracker
arrives; one that is held for the grace time has left the tree. Renames that were reported already are
remembered for a while, since a signal about both sides may follow and must not report them again.
-/

namespace StyleFeed

structure Held where
  path : Path
  tracker : Option Nat
  since : Instant
deriving DecidableEq

/-- A rename that was reported: both sides, or an arrival alone. -/
inductive Settled
  | paired (src dest : Path)
  | arrived (tracker : Nat) (dest : Path)
deriving DecidableEq

/-- A signal about both sides says nothing new. -/
def Settled.covers (src dest : Path) (tracker : Option Nat) : Settled → Bool
  | .paired s d => s.same src && d.same dest
  | .arrived t d => tracker == some t && d.same dest

/-- What the pairing may hold: a path that departed, and perhaps something that tells it from others. -/
class Departed (α : Type) where
  toHeld : α → Held

instance : Departed Held := ⟨fun h => h⟩

namespace Departed

variable {α : Type} [Departed α]

def path (a : α) : Path := (toHeld a).path

def since (a : α) : Instant := (toHeld a).since

/-- What departed has this tracker, or none if that is asked for. -/
def under (tracker : Option Nat) (a : α) : Bool := (toHeld a).tracker == tracker

end Departed

/-- An event, and what was held that it is about if it is about that. -/
structure Report (α : Type) where
  event : Event
  departure : Option α
deriving DecidableEq

def Report.ofChange {α : Type} (c : Change) : Report α := ⟨.change c, none⟩

structure Pairing (α : Type := Held) where
  grace : Duration
  /-- In the order of departure. -/
  held : List α
  /-- The oldest first. -/
  settled : List Settled
deriving DecidableEq

namespace Pairing

open Departed

def start (grace : Duration) : Pairing := ⟨grace, [], []⟩

/-- How many settled renames are remembered. -/
def memory : Nat := 64

/-- One more item comes in; if there is no room the first one goes. -/
def push {β : Type} (queue : List β) (x : β) : List β :=
  (if queue.length = memory then queue.tail else queue) ++ [x]

variable {α : Type}

def remember (p : Pairing α) (s : Settled) : Pairing α := { p with settled := push p.settled s }

def depart (p : Pairing α) (departing : List α) : Pairing α := { p with held := p.held ++ departing }

/-- Without a side a path has come if it is there, and has gone if it is not. -/
def byPresence (t : Tree) (path : Path) : Change :=
  if t.exists path then .created path else .deleted path

variable [Departed α]

/-- One path arrives: it came from the path that is held longest under its tracker, if there is one. -/
def arrive (p : Pairing α) (tracker : Option Nat) (dest : Path) : Report α × Pairing α :=
  match p.held.find? (under tracker) with
  | some a =>
    (⟨.change (.moved (path a) dest), some a⟩,
      { p with held := p.held.eraseP (under tracker) }.remember (.paired (path a) dest))
  | none =>
    (.ofChange (.created dest),
      match tracker with
      | some t => p.remember (.arrived t dest)
      | none => p)

def arriveAll (tracker : Option Nat) : List Path → Pairing α → List (Report α) × Pairing α
  | [], p => ([], p)
  | dest :: rest, p =>
    let (r, p) := p.arrive tracker dest
    let (rs, p) := arriveAll tracker rest p
    (r :: rs, p)

/-- Both sides are known at once. -/
def both (p : Pairing α) (tracker : Option Nat) (src dest : Path) : List (Report α) × Pairing α :=
  if p.settled.any (Settled.covers src dest tracker) then
    ([], { p with settled := p.settled.eraseP (Settled.covers src dest tracker) })
  else
    ([.ofChange (.moved src dest)], { p with held := p.held.filter fun a => !(path a).same src })

def rename (t : Tree) (p : Pairing α) (side : Signal.Side) (tracker : Option Nat) (departing : List α)
    (paths : List Path) : List (Report α) × Pairing α :=
  match side, paths with
  | .departed, _ => ([], p.depart departing)
  | .arrived, paths => arriveAll tracker paths p
  | .both, [src, dest] => p.both tracker src dest
  | .both, paths | .unknown, paths => (paths.map (.ofChange <| byPresence t ·), p)

/-- What a signal amounts to; when signals were lost, a rescan and nothing else. If paths depart with the signal, they
are given as they are to be held. -/
def answer (t : Tree) (p : Pairing α) (s : Signal) (departing : List α) : List (Report α) × Pairing α :=
  if s.lossy then ([⟨.rescan, none⟩], p)
  else match s.kind with
  | .create => (s.paths.map (.ofChange <| .created ·), p)
  | .remove => (s.paths.map (.ofChange <| .deleted ·), p)
  | .modify => (s.paths.map (.ofChange <| .modified ·), p)
  | .rename side => p.rename t side s.tracker departing s.paths
  -- What a folder held was reported path by path before the folder itself.
  | .removeFolder | .metadata | .access | .unknown => ([], p)

def Due (p : Pairing α) (now : Instant) (a : α) : Prop :=
  p.grace ≤ Clock.elapsed (since a) now

instance (p : Pairing α) (now : Instant) (a : α) : Decidable (p.Due now a) :=
  inferInstanceAs (Decidable (_ ≤ _))

/-- What was held for the grace time has gone. -/
def lapse (p : Pairing α) (now : Instant) : List (Report α) × Pairing α :=
  ((p.held.filter (p.Due now ·)).map fun a => ⟨.change (.deleted (path a)), some a⟩,
    { p with held := p.held.filter (¬ p.Due now ·) })

/-! ## What is delivered -/

def convert (t : Tree) (p : Pairing) (s : Signal) (now : Instant) : List Event × Pairing :=
  let (reports, p) := p.answer t s (s.paths.map (⟨·, s.tracker, now⟩))
  (reports.map Report.event, p)

def expire (p : Pairing) (now : Instant) : List Event × Pairing :=
  let (reports, p) := p.lapse now
  (reports.map Report.event, p)

/-- When the first of what is held has been held for the grace time. -/
def deadline? (p : Pairing) : Option Instant :=
  (p.held.map (·.since + p.grace)).min?

end Pairing
end StyleFeed
