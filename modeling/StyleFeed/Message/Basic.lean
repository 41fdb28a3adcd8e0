import StyleFeed.Json.Value

/-!
The messages to the browser. One is written as an object with one field, called after its kind, that holds
the fields of the message in order.
-/

namespace StyleFeed

inductive Message
  | created (name content : String)
  | deleted (name : String)
  | modified (name content : String)
  | renamed (oldName newName : String)
deriving DecidableEq, Repr

namespace Message

inductive Kind
  | created
  | deleted
  | modified
  | renamed
deriving DecidableEq, Repr

namespace Kind

def label : Kind → String
  | created => "created"
  | deleted => "deleted"
  | modified => "modified"
  | renamed => "renamed"

def all : List Kind := [created, deleted, modified, renamed]

def ofLabel? (s : String) : Option Kind :=
  all.find? (·.label == s)

def fields : Kind → List String
  | created | modified => ["name", "content"]
  | deleted => ["name"]
  | renamed => ["old_name", "new_name"]

end Kind

def kind : Message → Kind
  | .created .. => .created
  | .deleted .. => .deleted
  | .modified .. => .modified
  | .renamed .. => .renamed

/-- The name that the browser knows the style by after the message. -/
def name : Message → String
  | .created name _ | .deleted name | .modified name _ => name
  | .renamed _ newName => newName

/-- What the fields hold, in the order of `Kind.fields`. -/
def values : Message → List String
  | .created name content | .modified name content => [name, content]
  | .deleted name => [name]
  | .renamed oldName newName => [oldName, newName]

def ofValues? : Kind → List String → Option Message
  | .created, [name, content] => some (.created name content)
  | .deleted, [name] => some (.deleted name)
  | .modified, [name, content] => some (.modified name content)
  | .renamed, [oldName, newName] => some (.renamed oldName newName)
  | _, _ => none

def toJson (m : Message) : Json.Value :=
  .object [(m.kind.label, .object (m.kind.fields.zip (m.values.map .text)))]

def json (m : Message) : String :=
  String.ofList m.toJson.compact

/-- The bytes that a frame carries. -/
def payload (m : Message) : Bytes :=
  Utf8.encode m.json

/-- How many these are, counted without writing them. -/
def size (m : Message) : Nat :=
  4 + Json.quotedSize m.kind.label + Json.fieldsSize (m.kind.fields.zip m.values)

end Message
end StyleFeed
