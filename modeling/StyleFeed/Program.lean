import StyleFeed.CommandLine
import StyleFeed.Manifest
import StyleFeed.Service

/-!
The program as a whole: from its arguments and what it finds around it to what it prints and how it exits.
Which directory is watched is settled by the user's surroundings and by nothing that the browser says.
-/

namespace StyleFeed

/-- What the program finds around it. -/
structure Surroundings where
  home : Path
  /-- Where the user keeps the data of programs, if that is set. -/
  dataHome : Option Path
  executable : Path
deriving DecidableEq

/-- The directory to watch. A place for data that is no absolute path counts as not set. -/
def Surroundings.location (s : Surroundings) : Path :=
  let data := (s.dataHome.filter Path.isAbsolute).getD (s.home.join (.ofString ".local/share"))
  data.join (.ofString "userstyles")

inductive Outcome
  | refused (refusal : CommandLine.Refusal)
  /-- A text was asked for, and nothing was watched. -/
  | printed (text : String)
  | served (output : Bytes)
  | failed (failure : Failure) (output : Bytes)
deriving DecidableEq

namespace Outcome

def versionText : String := "watch-dir 0.1.0\n"

/-- The first line is the description of the package. -/
def helpText : String :=
  "Native-messaging host that streams user style sheet changes to a browser extension.\n\n" ++
  "Usage: watch-dir [OPTIONS]\n\n" ++
  "Options:\n" ++
  "      --log-level <LEVEL>\n" ++
  "          Log filter for stderr diagnostics (overrides the config file and RUST_LOG)\n" ++
  "      --print-manifest <EXTENSION_ID>\n" ++
  "          Print a native-messaging host manifest allowing EXTENSION_ID, then exit\n" ++
  "  -h, --help\n" ++
  "          Print help\n" ++
  "  -V, --version\n" ++
  "          Print version\n"

def exitCode : Outcome → Nat
  | refused refusal => refusal.exitCode
  | printed _ | served _ => 0
  | failed .. => 1

def output : Outcome → Bytes
  | refused .help => Utf8.encode helpText
  | refused .version => Utf8.encode versionText
  | refused _ => []
  | printed text => Utf8.encode text
  | served output | failed _ output => output

def failure? : Outcome → Option Failure
  | failed failure _ => some failure
  | _ => none

def ofEnding : Service.Ending → Outcome
  | ⟨none, output⟩ => served output
  | ⟨some failure, output⟩ => failed failure output

end Outcome

namespace Program

/-- What there is to do: either all is settled, or the service is to run on the tree. -/
def begin (s : Surroundings) (t : Tree) (arguments : List Bytes) (outlet : Outlet) (now : Instant) :
    Except Outcome (Tree × Service) :=
  match CommandLine.ofArguments arguments with
  | .error refusal => .error (.refused refusal)
  | .ok line =>
    match line.printManifest with
    | some extension =>
      match (Manifest.mk s.executable extension).json with
      | .ok text => .error (.printed (text ++ "\n"))
      | .error fault => .error (.failed ⟨fault.message, fault.cause?.toList⟩ [])
    | none =>
      match Service.prepare t s.location outlet now with
      | .ok begun => .ok begun
      | .error failure => .error (.failed failure [])

/-- One life cycle, by what there was to attend to; it may not be over yet. -/
def run (s : Surroundings) (t : Tree) (arguments : List Bytes) (occasions : List Occasion) (outlet : Outlet)
    (now : Instant) : Option Outcome :=
  match begin s t arguments outlet now with
  | .error outcome => some outcome
  | .ok (_, service) =>
    match service.attend occasions with
    | .ok _ => none
    | .error ending => some (.ofEnding ending)

end Program
end StyleFeed
