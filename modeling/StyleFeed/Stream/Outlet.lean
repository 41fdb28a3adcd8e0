import StyleFeed.Message.Basic
import StyleFeed.Stream.Frame

/-!
The output: what the calls on it answer, and what it has taken so far. A message goes out as one frame,
written until all of it is taken, and is flushed once.
-/

namespace StyleFeed

/-- What a call to write answers. -/
inductive Outlet.Answer
  | takesAll
  | takes (atMost : Nat)
  | fails (fault : IoFault)
deriving DecidableEq

/-- A call for which no answer is left succeeds. -/
structure Outlet where
  writes : List Outlet.Answer
  flushes : List (Option IoFault)
  accepted : Bytes
  flushed : Nat
deriving DecidableEq

namespace Outlet

/-- An outlet that takes everything. -/
def willing : Outlet := ⟨[], [], [], 0⟩

/-- Writes a buffer that is not empty, call by call. An interrupted call is made again. -/
def writeAll (buffer accepted : Bytes) : List Answer → Except IoFault Unit × List Answer × Bytes
  | [] => (.ok (), [], accepted ++ buffer)
  | .takesAll :: answers => (.ok (), answers, accepted ++ buffer)
  | .takes n :: answers =>
    if n = 0 then (.error .tookNothing, answers, accepted)
    else if buffer.length ≤ n then (.ok (), answers, accepted ++ buffer)
    else writeAll (buffer.drop n) (accepted ++ buffer.take n) answers
  | .fails fault :: answers =>
    if fault.kind = .interrupted then writeAll buffer accepted answers
    else (.error fault, answers, accepted)

def flush (o : Outlet) : Except IoFault Unit × Outlet :=
  match o.flushes with
  | some fault :: flushes => (.error fault, { o with flushes })
  | flushes => (.ok (), { o with flushes := flushes.tail, flushed := o.flushed + 1 })

/-- The largest payload whose length fits a header. -/
def headerLimit : Nat := 0xffffffff

/-- Sends a message, unless its payload is over the limit: then it is not even written out. -/
def send (limit : Nat) (m : Message) (o : Outlet) : Except Fault Unit × Outlet :=
  if limit < m.size then (.error (.tooLarge m.size limit), o)
  else if headerLimit < m.size then (.error (.tooLarge m.size headerLimit), o)
  else
    match writeAll (Frame.encode m.payload) o.accepted o.writes with
    | (.error fault, writes, accepted) => (.error (.io fault), { o with writes, accepted })
    | (.ok (), writes, accepted) =>
      match flush { o with writes, accepted } with
      | (.error fault, o) => (.error (.io fault), o)
      | (.ok (), o) => (.ok (), o)

end Outlet
end StyleFeed
