import StyleFeed.Text.Utf8

/-!
The command line. The options of the program come first; from the first argument that is none of them on,
everything was put there by the browser and is kept as it is. An option without `=` takes the argument
after it as its value, unless that is an option itself.

An option is checked when the next one is met, when the arguments of the browser begin, or at the end.
-/

namespace StyleFeed

inductive CommandLine.Setting
  /-- How much is logged. -/
  | logLevel
  /-- Which extension to print a manifest for. -/
  | printManifest
deriving DecidableEq, Repr

structure CommandLine where
  logLevel : Option String
  printManifest : Option String
  browserArguments : List String
deriving DecidableEq, Repr

namespace CommandLine

/-- Why there is no command line to go by. -/
inductive Refusal
  /-- The help is asked for. -/
  | help
  /-- The version is asked for. -/
  | version
  | missingValue
  | repeated
  | needlessValue
  | notText
  | unknownOption
deriving DecidableEq, Repr

/-- Answering a question is no failure. -/
def Refusal.exitCode : Refusal → Nat
  | help | version => 0
  | _ => 2

/-- An argument, as it is understood before the arguments of the browser begin. -/
inductive Word
  /-- Ends the options. -/
  | dashes
  | option (o : Setting) (value : Option Bytes)
  /-- Is refused as soon as the option before it has been checked. -/
  | question (r : Refusal)
  /-- Is refused at once. -/
  | faulty (r : Refusal)
  | other
deriving DecidableEq, Repr

namespace Word

def dash : UInt8 := 0x2d
def equals : UInt8 := 0x3d

/-- An argument after two dashes: what it is called, and its value if there is a sign of equality. -/
def ofLong (rest : Bytes) : Word :=
  let value := match rest.dropWhile (· != equals) with
    | [] => none
    | _ :: value => some value
  match Utf8.decode? (rest.takeWhile (· != equals)) with
  | none => .faulty .unknownOption
  | some called =>
    if called = "log-level" then .option .logLevel value
    else if called = "print-manifest" then .option .printManifest value
    else if called = "help" then if value.isSome then .faulty .needlessValue else .question .help
    else if called = "version" then if value.isSome then .faulty .needlessValue else .question .version
    else .other

/-- The letters after one dash; they ask a question only if each of them does. -/
def ofShort (letters : Bytes) : Word :=
  let asks (b : UInt8) : Option Refusal :=
    if b = 0x68 then some .help else if b = 0x56 then some .version else none
  match letters.mapM asks with
  | some (r :: _) => .question r
  | _ => .other

def ofArgument (argument : Bytes) : Word :=
  match argument with
  | c :: d :: rest =>
    if c ≠ dash then .other
    else if d ≠ dash then ofShort (d :: rest)
    else if rest = [] then .dashes
    else ofLong rest
  | _ => .other

end Word

/-- The options that were read, and the last one, with its value if it has one already, as long as it is
unchecked. -/
structure Reading where
  logLevel : Option String
  printManifest : Option String
  unchecked : Option (Setting × Option Bytes)

namespace Reading

def start : Reading := ⟨none, none, none⟩

def value? (r : Reading) : Setting → Option String
  | .logLevel => r.logLevel
  | .printManifest => r.printManifest

def give (r : Reading) (s : String) : Setting → Reading
  | .logLevel => { r with logLevel := some s }
  | .printManifest => { r with printManifest := some s }

/-- Checks the option that is still unchecked. -/
def check (r : Reading) : Except Refusal Reading :=
  match r.unchecked with
  | none => .ok r
  | some (_, none) => .error .missingValue
  | some (o, some value) =>
    if (r.value? o).isSome then .error .repeated
    else match Utf8.decode? value with
      | none => .error .notText
      | some s => .ok { r.give s o with unchecked := none }

/-- The arguments of the browser. -/
def close (r : Reading) (arguments : List Bytes) : Except Refusal CommandLine := do
  let r ← r.check
  match arguments.mapM Utf8.decode? with
  | some texts => return ⟨r.logLevel, r.printManifest, texts⟩
  | none => throw .notText

def read (r : Reading) : List Bytes → Except Refusal CommandLine
  | [] => r.close []
  | argument :: rest =>
    match Word.ofArgument argument with
    | .dashes => r.close rest
    | .option o none => do
      let r ← r.check
      read { r with unchecked := some (o, none) } rest
    | .option o (some value) => do
      let r ← r.check
      let r ← { r with unchecked := some (o, some value) }.check
      read r rest
    | .question refusal => do
      let _ ← r.check
      throw refusal
    | .faulty refusal => throw refusal
    | .other =>
      match r.unchecked with
      | some (o, none) => read { r with unchecked := some (o, some argument) } rest
      | _ => r.close (argument :: rest)

end Reading

def ofArguments (arguments : List Bytes) : Except Refusal CommandLine :=
  Reading.start.read arguments

end CommandLine
end StyleFeed
