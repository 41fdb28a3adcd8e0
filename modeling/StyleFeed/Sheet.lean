import StyleFeed.Fault

/-!
Which paths are style sheets, and what the browser calls them. Only the path is looked at: a style sheet is
strictly below the watched root, is called something that is text, ends in `.css` and is not hidden, and
no directory between the root and it is called `.git`.
-/

namespace StyleFeed

namespace FileName

/-- What marks a style sheet: `css`. -/
def sheetExtension : Bytes := [0x63, 0x73, 0x73]

/-- `.git`, whose contents are never reported. -/
def git : FileName := ⟨[0x2e, 0x67, 0x69, 0x74], by decide⟩

def isHidden (n : FileName) : Bool :=
  n.bytes.head? == some dot

def isSheet (n : FileName) : Bool :=
  (Utf8.decode? n.bytes).isSome && !n.isHidden && n.extension? == some sheetExtension

end FileName

namespace Component

/-- The last component is the name of a style sheet, and none is `.git`. -/
def isSheet (below : List Component) : Bool :=
  match below.getLast? with
  | some (.name n) => n.isSheet && !below.contains (.name .git)
  | _ => false

/-- The names among the components, as one text. -/
def joined (cs : List Component) : String :=
  "/".intercalate (cs.filterMap fun c => c.fileName?.map FileName.text)

/-- The last name without its extension. What is left may be a dot or two, and then is no name any more. -/
def dropExtension (cs : List Component) : List Component :=
  match cs.getLast? with
  | some (.name n) => cs.dropLast ++ (ofSegment? n.stem).toList
  | _ => cs

end Component

/-- The watched directory, the point that names are relative to. -/
structure Root where
  path : Path
deriving DecidableEq

namespace Root

def isSheet (root : Root) (p : Path) : Bool :=
  (p.below? root.path).any Component.isSheet

def below (root : Root) (p : Path) : Except Fault (List Component) :=
  match p.below? root.path with
  | some cs => .ok cs
  | none => .error (.outsideRoot p)

/-- The logical name: `a/b` for `root/a/b.css`. -/
def name (root : Root) (p : Path) : Except Fault String := do
  return Component.joined (Component.dropExtension (← root.below p))

/-- The same with the extension kept. -/
def relativeName (root : Root) (p : Path) : Except Fault String := do
  return Component.joined (← root.below p)

end Root
end StyleFeed
