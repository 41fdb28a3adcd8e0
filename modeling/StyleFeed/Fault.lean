import StyleFeed.Json.Value
import StyleFeed.Path
import StyleFeed.Text.Quoted

/-!
What can go wrong, as causes, and the text that is shown for each. A recoverable fault costs one message;
any other ends the program.
-/

namespace StyleFeed

inductive IoFault.Kind
  | notFound
  | permissionDenied
  | connectionReset
  | brokenPipe
  | alreadyExists
  | wouldBlock
  | invalidInput
  | invalidData
  | timedOut
  | writeZero
  | interrupted
  | unexpectedEof
  | outOfMemory
  | storageFull
  | isADirectory
  | notADirectory
  | other
deriving DecidableEq, Repr

def IoFault.Kind.description : Kind → String
  | notFound => "entity not found"
  | permissionDenied => "permission denied"
  | connectionReset => "connection reset"
  | brokenPipe => "broken pipe"
  | alreadyExists => "entity already exists"
  | wouldBlock => "operation would block"
  | invalidInput => "invalid input parameter"
  | invalidData => "invalid data"
  | timedOut => "timed out"
  | writeZero => "write zero"
  | interrupted => "operation interrupted"
  | unexpectedEof => "unexpected end of file"
  | outOfMemory => "out of memory"
  | storageFull => "no storage space"
  | isADirectory => "is a directory"
  | notADirectory => "not a directory"
  | other => "other error"

/-- A failed call on a stream or a file. -/
structure IoFault where
  kind : IoFault.Kind
  text : String
deriving DecidableEq, Repr

namespace IoFault

def ofKind (k : Kind) : IoFault := ⟨k, k.description⟩

/-- A stream took no byte of a buffer that is not empty. -/
def tookNothing : IoFault := ⟨.writeZero, "failed to write whole buffer"⟩

/-- A stream ended before a buffer was full. -/
def endedEarly : IoFault := ⟨.unexpectedEof, "failed to fill whole buffer"⟩

def notText : IoFault := ⟨.invalidData, "stream did not contain valid UTF-8"⟩

def nulInName : IoFault := ⟨.invalidInput, "file name contained an unexpected NUL byte"⟩

def noEntry : IoFault := ⟨.notFound, "No such file or directory (os error 2)"⟩

def alreadyThere : IoFault := ⟨.alreadyExists, "File exists (os error 17)"⟩

def notDirectory : IoFault := ⟨.notADirectory, "Not a directory (os error 20)"⟩

def directory : IoFault := ⟨.isADirectory, "Is a directory (os error 21)"⟩

end IoFault

inductive WatchFault.Cause
  | other (text : String)
  | io (fault : IoFault)
  | pathNotFound
  | watchNotFound
  | tooManyWatches
deriving DecidableEq, Repr

def WatchFault.Cause.text : Cause → String
  | other text => text
  | io fault => fault.text
  | pathNotFound => "No path was found."
  | watchNotFound => "No watch was found."
  | tooManyWatches => "OS file watch limit reached."

/-- A fault of the subscription to changes, and the paths that it concerns. -/
structure WatchFault where
  cause : WatchFault.Cause
  paths : List Path
deriving DecidableEq

def WatchFault.text (f : WatchFault) : String :=
  if f.paths = [] then f.cause.text
  else f.cause.text ++ " about [" ++ ", ".intercalate (f.paths.map (Text.quoted ·.bytes)) ++ "]"

inductive SerialFault
  | refused (text : Bytes) (refusal : Json.Refusal)
  | pathNotText
deriving DecidableEq

def SerialFault.text : SerialFault → String
  | refused text refusal => refusal.message text
  | pathNotText => "path contains invalid UTF-8 characters"

inductive Fault
  | outsideRoot (path : Path)
  | unreadable (path : Path) (cause : IoFault)
  | tooLarge (size limit : Nat)
  | io (cause : IoFault)
  | serial (cause : SerialFault)
  | watch (cause : WatchFault)
deriving DecidableEq

namespace Fault

/-- The text of the fault beneath this one. -/
def cause? : Fault → Option String
  | outsideRoot _ | tooLarge _ _ => none
  | unreadable _ cause | io cause => some cause.text
  | serial cause => some cause.text
  | watch cause => some cause.text

def message : Fault → String
  | outsideRoot path => s!"path is outside the watched root: {path.text}"
  | unreadable path cause => s!"cannot read {path.text}: {cause.text}"
  | tooLarge size limit => s!"message of {size} bytes exceeds the {limit} byte frame limit"
  | io cause => s!"io error: {cause.text}"
  | serial cause => s!"serialization error: {cause.text}"
  | watch cause => s!"notify error: {cause.text}"

def recoverable : Fault → Bool
  | unreadable _ _ | tooLarge _ _ => true
  | _ => false

end Fault
end StyleFeed
