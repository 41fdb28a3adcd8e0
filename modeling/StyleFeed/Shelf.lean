import StyleFeed.Message.Basic

/-!
The browser's side: the styles that it holds, by name. It knows no more of them than the messages say.
-/

namespace StyleFeed

/-- The contents of the styles, for the names that there is a style for. -/
structure Shelf where
  content? : String → Option String

namespace Shelf

def empty : Shelf := ⟨fun _ => none⟩

def put (s : Shelf) (name content : String) : Shelf :=
  ⟨fun n => if n = name then some content else s.content? n⟩

def drop (s : Shelf) (name : String) : Shelf :=
  ⟨fun n => if n = name then none else s.content? n⟩

section
variable (s : Shelf) (name content n : String)

@[simp, grind =]
theorem content?_empty : empty.content? n = none := rfl

@[simp, grind =]
theorem content?_put : (s.put name content).content? n = if n = name then some content else s.content? n := rfl

@[simp, grind =]
theorem content?_drop : (s.drop name).content? n = if n = name then none else s.content? n := rfl

end

/-- The shelf after a message. A style that is not there is not renamed. -/
def receive (s : Shelf) : Message → Shelf
  | .created name content | .modified name content => s.put name content
  | .deleted name => s.drop name
  | .renamed oldName newName =>
    match s.content? oldName with
    | some content => (s.drop oldName).put newName content
    | none => s

def receiveAll (s : Shelf) (ms : List Message) : Shelf :=
  ms.foldl receive s

end Shelf
end StyleFeed
