import StyleFeed.Program

/-!
The command. It takes a picture of the file system where the program looks at it, lets the program say what
is to be done, and writes that down.
-/

namespace StyleFeed

/-- Adds what is at a place to the picture; of a directory also all below it if that is asked for. What
cannot be read is left out. -/
partial def picture (below : Bool) (t : Tree) (place : IO.FS.DirEntry) : IO Tree := do
  let path := Path.ofString place.path.toString
  let .ok found ← place.path.symlinkMetadata.toBaseIO | return t
  match found.type with
  | .file =>
    let .ok content ← (IO.FS.readBinFile place.path).toBaseIO | return t
    return (t.write path content.toList).toOption.getD t
  | .symlink =>
    let .ok target ← (IO.FS.realPath place.path).toBaseIO | return (t.link path path).toOption.getD t
    let t ← picture false t ⟨target.parent.getD target, target.fileName.getD ""⟩
    return (t.link path (.ofString target.toString)).toOption.getD t
  | .dir =>
    let t := (t.makeDirectories path).toOption.getD t
    let entries ← if below then place.path.readDir else pure #[]
    entries.foldlM (picture true) t
  | .other => return t

/-- The way to a path, as entries of directories, the outermost first. -/
def wayTo (p : Path) : List IO.FS.DirEntry :=
  (p.ancestors.reverse.filter (·.bytes ≠ [])).map fun q => ⟨"", q.text⟩

/-- What is on the way to a directory and below it, seen from the current one. -/
def pictureOf (location : Path) : IO Tree := do
  let current := Path.ofString (← IO.currentDir).toString
  let start := Tree.empty (current.components.filterMap Component.fileName?)
  let t ← (wayTo current ++ wayTo location).foldlM (picture false) start
  match t.canonical location with
  | .error _ => return t
  | .ok p => picture true t ⟨"", p.text⟩

/-- Reads the input to its end. -/
partial def listen (input : IO.FS.Stream) : IO Unit := do
  unless (← input.read 4096).isEmpty do listen input

/-- Writes to the browser. -/
def deliver (output : Bytes) : IO Unit := do
  let stream ← IO.getStdout
  stream.write output.toByteArray
  stream.flush

/-- The event in hand being reported: the tree it is reported on, and the writing of what it comes to. -/
structure Reporting where
  tree : Tree
  written : Task (Except IO.Error Unit)

/-- Begins to report the event in hand. -/
def Reporting.begin (location : Path) (s : Service) : IO Reporting := do
  let t ← pictureOf location
  return ⟨t, ← IO.asTask (deliver (s.report t).2.outlet.accepted) .dedicated⟩

/-- What there is to attend to: that the input has ended, a deadline of the delivery, or the reporting. -/
def occasion (location : Path) (input : Task (Except IO.Error Unit)) (reporting : Option Reporting)
    (s : Service) : IO Occasion := do
  let now ← IO.monoNanosNow
  if s.stopping.isNone && (← IO.hasFinished input) then return .disconnected now
  if let .ok (some due) := s.delivery.bind Delivery.deadline? then
    if due ≤ now then return .received (← pictureOf location) .timeout now
  let some reporting := reporting | return .worked (.empty [])
  if ← IO.hasFinished reporting.written then return .worked reporting.tree
  return .waited reporting.tree 0 now

/-- Attends to one occasion after the other until the service has ended. What it has put out is written while
the event is in hand, and forgotten after that. -/
partial def keep (location : Path) (input : Task (Except IO.Error Unit)) (reporting : Option Reporting)
    (s : Service) : IO Service.Ending := do
  let reporting ← match reporting with
    | none => if s.hand.isSome then some <$> Reporting.begin location s else pure none
    | some reporting => pure (some reporting)
  match s.step (← occasion location input reporting s) with
  | .error ending => return ending
  | .ok s =>
    IO.sleep 10
    if s.hand.isSome then keep location input reporting s
    else
      let written : Except IO.Error Unit := reporting.elim (.ok ()) (·.written.get)
      match written with
      | .ok () => keep location input none { s with feed := { s.feed with outlet := .willing } }
      | .error fault => return ⟨some ⟨"failed to report changes", [fault.toString]⟩, []⟩

/-- Writes how the program ended, and gives its exit code. -/
def conclude (outcome : Outcome) : IO UInt32 := do
  let output ← IO.getStdout
  output.write outcome.output.toByteArray
  output.flush
  if let some failure := outcome.failure? then IO.eprintln failure.text
  return UInt32.ofNat outcome.exitCode

end StyleFeed

open StyleFeed in
def main (arguments : List String) : IO UInt32 := do
  let some home ← IO.getEnv "HOME"
    | conclude (.failed ⟨"cannot determine the home directory", []⟩ [])
  let surroundings : Surroundings :=
    { home := .ofString home
      dataHome := (← IO.getEnv "XDG_DATA_HOME").map Path.ofString
      executable := .ofString (← IO.appPath).toString }
  let location := surroundings.location
  let t ← pictureOf location
  match Program.begin surroundings t (arguments.map Utf8.encode) .willing (← IO.monoNanosNow) with
  | .error outcome => conclude outcome
  | .ok (_, service) =>
    IO.FS.createDirAll location.text
    let input ← IO.asTask (listen (← IO.getStdin)) .dedicated
    let ending ← keep location input none service
    conclude (.ofEnding { ending with output := [] })
