import StyleFeed.Fault

/-!
The manifest that a browser is shown before it starts the program: where the program is, and the one
extension that may talk to it.
-/

namespace StyleFeed

structure Manifest where
  executable : Path
  extension : String
deriving DecidableEq

namespace Manifest

/-- The fields for a path that is text. -/
def fields (executable extension : String) : Json.Value :=
  .object [
    ("name", .text "watch_dir"),
    ("description", .text "Reports user style sheet changes to the browser"),
    ("path", .text executable),
    ("type", .text "stdio"),
    ("allowed_extensions", .list [.text extension])]

def json (m : Manifest) : Except Fault String :=
  match Utf8.decode? m.executable.bytes with
  | some executable => .ok (String.ofList ((fields executable m.extension).indented 0))
  | none => .error (.serial .pathNotText)

end Manifest
end StyleFeed
