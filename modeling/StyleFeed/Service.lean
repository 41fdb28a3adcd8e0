import StyleFeed.Feed
import StyleFeed.Tree.Edit
import StyleFeed.Tuning

/-!
The service: it makes sure of the watched root, and then attends to what the system, the browser and the clock
have to say. What is delivered waits in a queue. The reporting takes one event after the other, a scan before
all; it goes on beside the rest, so that at any time it is at one event or at none. What the browser says is
read and means nothing; that it has gone is a request to stop, like a signal. From then on the reporting takes
nothing more, and has a grace time to finish what it is at.
-/

namespace StyleFeed

/-- Makes the directory if there is none. Its changes are reported under its canonical path. -/
def Root.prepare (t : Tree) (p : Path) : Except IoFault (Tree × Root) := do
  let t ← t.makeDirectories p
  return (t, ⟨← t.canonical p⟩)

/-- What the program could not do, and the causes, each that of the one before. -/
structure Failure where
  attempt : String
  causes : List String
deriving DecidableEq, Repr

namespace Failure

def ofFault (attempt : String) (f : Fault) : Failure :=
  ⟨attempt, f.message :: f.cause?.toList⟩

def indented (cause : String) : String := "\n    " ++ cause

/-- A number stands before each cause if there are several. -/
def causesText : List String → String
  | [] => ""
  | [cause] => "\n\nCaused by:" ++ indented cause
  | causes =>
    "\n\nCaused by:" ++ String.join (causes.zipIdx.map fun (cause, k) => indented s!"{k}: {cause}")

def text (x : Failure) : String :=
  "Error: " ++ x.attempt ++ causesText x.causes

end Failure

/-- What the service attends to. -/
inductive Occasion
  /-- The browser says something. -/
  | heard (frame : Bytes)
  /-- The input has ended or cannot be read. -/
  | disconnected (now : Instant)
  /-- The system tells the service to stop. -/
  | signalled (now : Instant)
  /-- The delivery wakes up; the tree is the one by then. -/
  | received (t : Tree) (r : Received) (now : Instant)
  /-- The reporting gets on: it is through with the event in hand, on the tree as it is by then, or takes the
  next one. -/
  | worked (t : Tree)
  /-- Time passes. Of what the event in hand comes to on the tree so many bytes are out by now. -/
  | waited (t : Tree) (out : Nat) (now : Instant)

/-- What an input amounts to that has ended by the time. -/
def Occasion.ofInput (input : Source) (now : Instant) : List Occasion :=
  (Frame.readAll input).1.map heard ++ [disconnected now]

structure Service where
  feed : Feed
  /-- A delivery that has halted has nothing more to say. -/
  delivery : Except Delivery.Halt Delivery
  /-- What was delivered and is not taken yet. -/
  queue : List Event
  /-- What the reporting is at. -/
  hand : Option Event
  /-- When the service was told to stop, if it was. -/
  stopping : Option Instant

namespace Service

/-- How the service ended, and all that it has put out. -/
structure Ending where
  failure? : Option Failure
  output : Bytes
deriving DecidableEq

/-- How long the reporting has from a request to stop on; then it is left behind. -/
def stopGrace : Duration := Clock.seconds 2

/-- The service at its beginning, with the first scan in hand, and the tree in which its root has been made. -/
def prepare (t : Tree) (location : Path) (outlet : Outlet) (now : Instant) :
    Except Failure (Tree × Service) :=
  match Root.prepare t location with
  | .error fault => .error ⟨s!"cannot prepare {location.text}", [fault.text]⟩
  | .ok (t, root) =>
    match t.watch root.path with
    | .error fault => .error (.ofFault s!"failed to watch {root.path.text}" fault)
    | .ok () =>
      let tuning := Tuning.load t root.path
      .ok (t,
        { feed := .start root Feed.browserLimit outlet
          delivery := Delivery.start tuning.schedule now
          queue := []
          hand := some .rescan
          stopping := none })

def ended (s : Service) : Ending := ⟨none, s.feed.outlet.accepted⟩

/-- What is delivered when the delivery wakes up joins the queue. -/
def deliver (s : Service) (t : Tree) (r : Received) (now : Instant) : Service :=
  match s.delivery.bind fun d => d.turn t r now with
  | .error halt => { s with delivery := .error halt }
  | .ok (events, d) => { s with delivery := .ok d, queue := s.queue ++ events }

/-- A request to stop closes the source of the delivery. Only the first one counts. -/
def stop (s : Service) (now : Instant) : Service :=
  { s with delivery := .error .closed, stopping := s.stopping.or (some now) }

/-- The event in hand is reported, if there is one. -/
def report (s : Service) (t : Tree) : Except Fault Unit × Feed :=
  match s.hand with
  | some e => s.feed.handle t e
  | none => (.ok (), s.feed)

/-- Takes the next event. The reporting ends when there will be no more, and when it takes one while it is to
stop. -/
def take (s : Service) : Except Ending Service :=
  match s.queue, s.delivery with
  | e :: queue, _ => if s.stopping.isSome then .error s.ended else .ok { s with hand := some e, queue }
  | [], .ok _ => .ok s
  | [], .error _ => .error s.ended

def work (s : Service) (t : Tree) : Except Ending Service :=
  if s.hand.isNone then s.take
  else
    match s.report t with
    | (.ok (), feed) => .ok { s with feed, hand := none }
    | (.error fault, feed) =>
      .error ⟨some (.ofFault "failed to report changes" fault), feed.outlet.accepted⟩

def GraceOver (s : Service) (now : Instant) : Prop :=
  ∃ since ∈ s.stopping, since + stopGrace ≤ now

instance (s : Service) (now : Instant) : Decidable (s.GraceOver now) :=
  inferInstanceAs (Decidable (∃ since ∈ s.stopping, since + stopGrace ≤ now))

/-- The reporting is left behind, with so many bytes out of what it is at. -/
def leave (s : Service) (t : Tree) (out : Nat) : Ending :=
  ⟨none, (s.report t).2.outlet.accepted.take (s.feed.outlet.accepted.length + out)⟩

def step (s : Service) : Occasion → Except Ending Service
  | .heard _ => .ok s
  | .disconnected now | .signalled now => .ok (s.stop now)
  | .received t r now => .ok (s.deliver t r now)
  | .worked t => s.work t
  | .waited t out now => if s.GraceOver now then .error (s.leave t out) else .ok s

/-- Attends to one occasion after the other, until one of them ends the service. -/
def attend (s : Service) (occasions : List Occasion) : Except Ending Service :=
  occasions.foldlM step s

end Service
end StyleFeed
