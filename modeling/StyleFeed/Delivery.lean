import StyleFeed.Pairing

/-!
The delivery of events, as a loop that wakes up for a signal, for the first deadline, or because its source
is closed. Each time it delivers what was held for too long, then what the signal amounts to, then a rescan
if one is due. It halts when the source is closed, or when a time it needs is none the clock can show.
-/

namespace StyleFeed

/-- What the loop wakes up for. -/
inductive Received
  | signal (s : Signal)
  | fault (f : WatchFault)
  | timeout
  | closed
deriving DecidableEq

structure Schedule where
  /-- How long a departed path waits for its other side. -/
  grace : Duration
  /-- How often the tree is scanned again, if at all. -/
  rescanEvery : Option Duration
deriving DecidableEq

structure Delivery where
  schedule : Schedule
  pairing : Pairing
  nextRescan : Option Instant
deriving DecidableEq

namespace Delivery

inductive Halt
  | closed
  | beyondClock
deriving DecidableEq, Repr

def timeAfter (now : Instant) (d : Duration) : Except Halt Instant :=
  (Clock.after? now d).elim (.error .beyondClock) .ok

def start (s : Schedule) (now : Instant) : Except Halt Delivery := do
  let nextRescan ← s.rescanEvery.mapM (timeAfter now)
  return ⟨s, .start s.grace, nextRescan⟩

/-- When the loop wakes up at the latest. -/
def deadline? (d : Delivery) : Except Halt (Option Instant) := do
  let expiries ← d.pairing.held.mapM fun h => timeAfter h.since d.pairing.grace
  return (expiries ++ d.nextRescan.toList).min?

/-- The rescan that is due, and when the next one is. -/
def periodic (d : Delivery) (now : Instant) : Except Halt (List Event × Option Instant) :=
  match d.nextRescan, d.schedule.rescanEvery with
  | some due, some every =>
    if due ≤ now then do return ([.rescan], some (← timeAfter now every))
    else .ok ([], some due)
  | next, _ => .ok ([], next)

/-- What is done when the loop has woken up. -/
def step (t : Tree) (d : Delivery) (r : Received) (now : Instant) :
    Except Halt (List Event × Delivery) := do
  let (expired, p) := d.pairing.expire now
  let (converted, p) ← match r with
    | .signal s => .ok (p.convert t s now)
    | .fault _ | .timeout => .ok ([], p)
    | .closed => .error .closed
  let (rescan, nextRescan) ← d.periodic now
  return (expired ++ converted ++ rescan, { d with pairing := p, nextRescan })

/-- One turn of the loop: it looks up its deadline, and then is woken up. -/
def turn (t : Tree) (d : Delivery) (r : Received) (now : Instant) :
    Except Halt (List Event × Delivery) := do
  let _ ← d.deadline?
  d.step t r now

/-- All that is delivered while the loop wakes up for the given reasons at the given times. -/
def run (t : Tree) : Delivery → List (Received × Instant) → List Event
  | _, [] => []
  | d, (r, now) :: rest =>
    match d.turn t r now with
    | .ok (events, d) => events ++ run t d rest
    | .error _ => []

end Delivery

/-- Whether changes at a path can be watched: it has to lead to something. -/
def Tree.watch (t : Tree) (p : Path) : Except Fault Unit :=
  if t.exists p then .ok () else .error (.watch ⟨.pathNotFound, []⟩)

end StyleFeed
