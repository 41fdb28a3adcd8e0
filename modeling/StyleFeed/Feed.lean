import StyleFeed.Names
import StyleFeed.Signal
import StyleFeed.Stream.Outlet
import StyleFeed.Tree.Walk

/-!
The feed of messages about one watched root. It remembers the names that it has reported, so that it can
take back those of a directory that went away, and after a scan those of which no file is left.

What the messages about an event are is a function of the tree, the names and the event; sending them
changes the names message by message. A message that is refused for its size is dropped, any other fault
ends the event.
-/

namespace StyleFeed

structure Feed where
  root : Root
  /-- The largest payload that is sent. -/
  limit : Nat
  known : Names
  outlet : Outlet
deriving DecidableEq

namespace Feed

/-- The largest payload that a browser accepts. -/
def browserLimit : Nat := 1024 * 1024

def start (root : Root) (limit : Nat) (outlet : Outlet) : Feed := ⟨root, limit, .empty, outlet⟩

/-- A message with the content of a file. There is none about a file that cannot be read, which has
most likely gone again. -/
def withContent (f : Feed) (t : Tree) (p : Path) (build : String → String → Message) :
    Except Fault (Option Message) := do
  let name ← f.root.name p
  match t.readText p with
  | .ok content => return some (build name content)
  | .error cause =>
    let fault := Fault.unreadable p cause
    if fault.recoverable then return none else .error fault

def createdAt (f : Feed) (t : Tree) (p : Path) : Except Fault (Option Message) :=
  f.withContent t p .created

/-- The style sheets at and below a path, each reported as created. -/
def createdBelow (f : Feed) (t : Tree) (p : Path) : Except Fault (List Message) := do
  return (← (t.sheets f.root p).mapM (f.createdAt t)).filterMap id

/-- The reported names that a directory at the path would hold. -/
def knownBelow (f : Feed) (p : Path) : Except Fault Names := do
  if (p.below? f.root.path).isNone then return .empty
  let relative ← f.root.relativeName p
  return f.known.filter fun n => relative = "" || (relative.toList ++ ['/']).isPrefixOf n.toList

/-- The message about one file that was moved. -/
def movedFile (f : Feed) (t : Tree) (src dest : Path) : Except Fault (Option Message) := do
  match f.root.isSheet src, f.root.isSheet dest with
  | true, true =>
    let oldName ← f.root.name src
    let newName ← f.root.name dest
    return if oldName = newName then none else some (.renamed oldName newName)
  | true, false => return some (.deleted (← f.root.name src))
  | false, true => f.createdAt t dest
  | false, false => return none

/-- The messages about a directory that was moved: about each style sheet that is now in it as a file that
was moved, and about each reported name of its old place that none of them had. -/
def movedDirectory (f : Feed) (t : Tree) (src dest : Path) : Except Fault (List Message) := do
  let before ← f.knownBelow src
  let routes := t.sheetRoutes f.root dest
  let moved ← routes.mapM fun r => f.movedFile t (src.extend r) (dest.extend r)
  let kept ← ((routes.map src.extend).filter f.root.isSheet).mapM f.root.name
  return moved.filterMap id ++ (before.diff (.ofList kept)).toList.map .deleted

/-- The messages about a change, in the order in which they are sent. -/
def messagesAbout (f : Feed) (t : Tree) : Change → Except Fault (List Message)
  | .created p =>
    if t.isDirectory p then f.createdBelow t p
    else if f.root.isSheet p then do return (← f.createdAt t p).toList
    else .ok []
  | .deleted p => do
    let own ← if f.root.isSheet p then do pure [← f.root.name p] else pure []
    return (own ++ (← f.knownBelow p).toList).map .deleted
  | .modified p =>
    if !f.root.isSheet p || t.isDirectory p then .ok []
    else do return (← f.withContent t p .modified).toList
  | .moved src dest =>
    if t.isDirectory dest then f.movedDirectory t src dest
    else do return (← f.movedFile t src dest).toList

/-- The messages after a scan of the whole tree. -/
def messagesAfterScan (f : Feed) (t : Tree) : Except Fault (List Message) := do
  let present ← (t.sheets f.root f.root.path).mapM f.root.name
  let fresh ← f.createdBelow t f.root.path
  return fresh ++ (f.known.diff (.ofList present)).toList.map .deleted

def messages (f : Feed) (t : Tree) : Event → Except Fault (List Message)
  | .change c => f.messagesAbout t c
  | .rescan => f.messagesAfterScan t

/-- Sends messages in order, and remembers the names of those that were sent. -/
def send (f : Feed) : List Message → Except Fault Unit × Feed
  | [] => (.ok (), f)
  | m :: ms =>
    match f.outlet.send f.limit m with
    | (.ok (), outlet) => send { f with outlet, known := f.known.record m } ms
    | (.error fault, outlet) =>
      if fault.recoverable then send { f with outlet } ms else (.error fault, { f with outlet })

def handle (f : Feed) (t : Tree) (e : Event) : Except Fault Unit × Feed :=
  match f.messages t e with
  | .ok ms => f.send ms
  | .error fault => (.error fault, f)

def resync (f : Feed) (t : Tree) : Except Fault Unit × Feed :=
  f.handle t .rescan

/-- Handles events, each on the tree as it is by then, until a fault ends one of them. -/
def run (f : Feed) : List (Tree × Event) → Except Fault Unit × Feed
  | [] => (.ok (), f)
  | (t, e) :: rest =>
    match f.handle t e with
    | (.ok (), f) => f.run rest
    | (.error fault, f) => (.error fault, f)

end Feed
end StyleFeed
