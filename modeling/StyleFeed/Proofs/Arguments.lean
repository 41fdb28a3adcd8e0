import StyleFeed.Fallible
import StyleFeed.Program
import StyleFeed.Proofs.Utf8

/-!
The options of the program end where the arguments of the browser begin: `CommandLine.browser_arguments_kept`. Whatever
the browser adds after its first argument is kept as it is, and the program begins as it would without it.
-/

namespace StyleFeed

namespace CommandLine

/-- An argument that nobody takes for an option: it is not empty, and it does not begin with a dash. -/
def Plain (argument : String) : Prop := ∃ c ∈ argument.toList.head?, c ≠ '-'

/-- What an option is called. -/
def Setting.label : Setting → String
  | .logLevel => "log-level"
  | .printManifest => "print-manifest"

/-- An option with its value, which stands in an argument of its own or is joined to the option. -/
structure Given where
  setting : Setting
  value : String
  joined : Bool
  plain : Plain value

def Given.arguments (g : Given) : List String :=
  if g.joined then ["--" ++ g.setting.label ++ "=" ++ g.value] else ["--" ++ g.setting.label, g.value]

/-- The value that is given for a setting. -/
def valueOf (given : List Given) (o : Setting) : Option String :=
  (given.find? (·.setting = o)).map (·.value)

/-! ## One argument -/

theorem mapM_decode?_encode (arguments : List String) :
    (arguments.map Utf8.encode).mapM Utf8.decode? = some arguments := by
  induction arguments with
  | nil => rfl
  | cons s rest ih => simp [List.mapM_cons, Utf8.decode?_encode, ih]

namespace Word

theorem ofArgument_of_ne {b : UInt8} (other : b ≠ dash) (rest : Bytes) : ofArgument (b :: rest) = .other := by
  cases rest with
  | nil => rfl
  | cons d rest => rw [ofArgument, if_pos other]

theorem ofArgument_plain {s : String} (plain : Plain s) : ofArgument (Utf8.encode s) = .other := by
  obtain ⟨c, first, noDash⟩ := plain
  obtain ⟨cs, text⟩ := List.head?_eq_some_iff.mp first
  obtain ⟨b, bytes, code⟩ := List.exists_cons_of_ne_nil (Utf8.encodeChar_ne_nil c)
  have other : b ≠ dash := by
    rintro rfl
    have within : UInt8.ofNat '-'.toNat ∈ Utf8.encode (String.ofList [c]) := by
      rw [Utf8.encode_ofList, Utf8.encodeChars_cons, code]
      exact List.mem_cons_self
    have same := Utf8.mem_of_mem_encode (by decide) within
    rw [String.toList_ofList, List.mem_singleton] at same
    exact noDash same.symm
  rw [Utf8.encode_eq, text, Utf8.encodeChars_cons, code, List.cons_append, ofArgument_of_ne other]

theorem ofArgument_option (o : Setting) : ofArgument (Utf8.encode ("--" ++ o.label)) = .option o none := by
  cases o <;> rfl

theorem ofArgument_joined (o : Setting) (value : String) :
    ofArgument (Utf8.encode ("--" ++ o.label ++ "=" ++ value)) = .option o (some (Utf8.encode value)) := by
  have written : Utf8.encode ("--" ++ o.label ++ "=" ++ value) =
      dash :: dash :: (Utf8.encode o.label ++ equals :: Utf8.encode value) := by
    simp only [Utf8.encode_append, List.append_assoc]
    rfl
  have within : ∀ b ∈ Utf8.encode o.label, (b != equals) = true := by cases o <;> decide +kernel
  have called : Utf8.decode? (Utf8.encode o.label) = some o.label := Utf8.decode?_encode _
  have more : Utf8.encode o.label ++ equals :: Utf8.encode value ≠ [] := by simp
  rw [written, ofArgument, if_neg (by simp), if_neg (by simp), if_neg more, ofLong,
    List.dropWhile_append_of_pos within, List.takeWhile_append_of_pos within]
  simp only [bne_self_eq_false, List.dropWhile_cons_of_neg, List.takeWhile_cons_of_neg, Bool.false_eq_true,
    not_false_eq_true, List.append_nil, called]
  cases o <;> rfl

end Word

/-! ## Reading -/

namespace Reading

theorem value?_give (r : Reading) (s : String) (o o' : Setting) :
    (r.give s o).value? o' = if o = o' then some s else r.value? o' := by
  cases o <;> cases o' <;> rfl

/-- The options as they stand when all of them have been checked. -/
def giveAll (r : Reading) (given : List Given) : Reading :=
  given.foldl (fun r g => r.give g.value g.setting) r

theorem value?_giveAll {given : List Given} (once : (given.map (·.setting)).Nodup) (r : Reading) (o : Setting) :
    (r.giveAll given).value? o = (valueOf given o).or (r.value? o) := by
  induction given generalizing r with
  | nil => rfl
  | cons g rest ih =>
    obtain ⟨new, once⟩ := List.nodup_cons.mp once
    have later : (r.giveAll (g :: rest)) = (r.give g.value g.setting).giveAll rest := rfl
    rw [later, ih once, value?_give, valueOf, valueOf]
    by_cases same : g.setting = o
    · have none : rest.find? (·.setting = o) = none := by
        rw [List.find?_eq_none]
        intro g' mem same'
        exact new (List.mem_map.mpr ⟨g', mem, (of_decide_eq_true same').trans same.symm⟩)
      simp [same, none]
    · simp [same]

variable {r r' : Reading}

theorem unchecked_of_check (checked : r.check = .ok r') : r'.unchecked = none := by
  unfold check at checked
  split at checked
  · rename_i unchecked
    cases checked
    exact unchecked
  · cases checked
  · split at checked
    · cases checked
    · split at checked
      · cases checked
      · cases checked
        rfl

theorem check_value (nothing : r.unchecked = none) {o : Setting} (new : r.value? o = none) (s : String) :
    check { r with unchecked := some (o, some (Utf8.encode s)) } = .ok (r.give s o) := by
  have same : value? { r with unchecked := some (o, some (Utf8.encode s)) } o = r.value? o := by cases o <;> rfl
  simp only [check, same, new, Option.isSome_none, Bool.false_eq_true, if_false, Utf8.decode?_encode]
  obtain ⟨logLevel, printManifest, unchecked⟩ := r
  cases nothing
  cases o <;> rfl

/-- An option that was not given before is read with its value. -/
theorem read_given (checked : r.check = .ok r') {g : Given} (new : r'.value? g.setting = none) (rest : List Bytes) :
    ∃ next : Reading, next.check = .ok (r'.give g.value g.setting) ∧
      r.read (g.arguments.map Utf8.encode ++ rest) = next.read rest := by
  have value := check_value (unchecked_of_check checked) new g.value
  unfold Given.arguments
  split
  · refine ⟨r'.give g.value g.setting, ?_, ?_⟩
    · obtain ⟨logLevel, printManifest, unchecked⟩ := r'
      cases unchecked_of_check checked
      cases g.setting <;> rfl
    · rw [List.map_singleton, List.singleton_append, read, Word.ofArgument_joined]
      simp only [checked, value, ok_bind]
  · refine ⟨{ r' with unchecked := some (g.setting, some (Utf8.encode g.value)) }, value, ?_⟩
    rw [List.map_cons, List.map_singleton, List.cons_append, List.singleton_append, read, Word.ofArgument_option]
    simp only [checked, ok_bind]
    rw [read, Word.ofArgument_plain g.plain]

theorem read_allGiven {given : List Given} (once : (given.map (·.setting)).Nodup) (checked : r.check = .ok r')
    (new : ∀ g ∈ given, r'.value? g.setting = none) (rest : List Bytes) :
    ∃ next : Reading, next.check = .ok (r'.giveAll given) ∧
      r.read ((given.flatMap Given.arguments).map Utf8.encode ++ rest) = next.read rest := by
  induction given generalizing r r' with
  | nil => exact ⟨r, checked, rfl⟩
  | cons g others ih =>
    obtain ⟨other, once⟩ := List.nodup_cons.mp once
    obtain ⟨newFirst, newOthers⟩ := List.forall_mem_cons.mp new
    obtain ⟨next, checkedFirst, readFirst⟩ :=
      read_given checked newFirst ((others.flatMap Given.arguments).map Utf8.encode ++ rest)
    have newAfter : ∀ g' ∈ others, (r'.give g.value g.setting).value? g'.setting = none := by
      intro g' mem
      rw [value?_give, if_neg fun same => other (List.mem_map.mpr ⟨g', mem, same.symm⟩), newOthers g' mem]
    obtain ⟨last, checkedAll, readAll⟩ := ih once checkedFirst newAfter
    refine ⟨last, checkedAll, ?_⟩
    rw [List.flatMap_cons, List.map_append, List.append_assoc, readFirst, readAll]

/-- Nothing is an option from the first plain argument on. -/
theorem read_browser (checked : r.check = .ok r') {arguments : List String}
    (plain : ∀ first ∈ arguments.head?, Plain first) :
    r.read (arguments.map Utf8.encode) = .ok ⟨r'.logLevel, r'.printManifest, arguments⟩ := by
  have closed : r.close (arguments.map Utf8.encode) = .ok ⟨r'.logLevel, r'.printManifest, arguments⟩ := by
    simp only [close, checked, ok_bind, mapM_decode?_encode]
    rfl
  cases arguments with
  | nil => exact closed
  | cons first rest =>
    rw [List.map_cons, read, Word.ofArgument_plain (plain first rfl)]
    simp only
    split
    · -- an option that still waits for its value does not pass the check
      rename_i waits
      rw [check, waits] at checked
      cases checked
    · exact closed

end Reading

theorem ofArguments_given {given : List Given} (once : (given.map (·.setting)).Nodup) (arguments : List String)
    (plain : ∀ first ∈ arguments.head?, Plain first) :
    ofArguments ((given.flatMap Given.arguments ++ arguments).map Utf8.encode) =
      .ok ⟨valueOf given .logLevel, valueOf given .printManifest, arguments⟩ := by
  have checked : Reading.start.check = .ok .start := rfl
  have new : ∀ g ∈ given, Reading.start.value? g.setting = none := by
    intro g _
    cases g.setting <;> rfl
  obtain ⟨next, checked, read⟩ := Reading.read_allGiven once checked new (arguments.map Utf8.encode)
  have value (o : Setting) := Reading.value?_giveAll once .start o
  have logLevel : (Reading.start.giveAll given).logLevel = valueOf given .logLevel :=
    (value .logLevel).trans Option.or_none
  have printManifest : (Reading.start.giveAll given).printManifest = valueOf given .printManifest :=
    (value .printManifest).trans Option.or_none
  rw [ofArguments, List.map_append, read, Reading.read_browser checked plain, logLevel, printManifest]

/-- The options are those before the first argument of the browser, whatever follows: that is kept as it is. So the
program begins as it does without the browser's arguments. -/
theorem browser_arguments_kept (given : List Given) (once : (given.map (·.setting)).Nodup) {first : String}
    (plain : Plain first) (rest : List String) :
    ofArguments ((given.flatMap Given.arguments ++ first :: rest).map Utf8.encode) =
      .ok ⟨valueOf given .logLevel, valueOf given .printManifest, first :: rest⟩ ∧
    ∀ s t outlet now,
      Program.begin s t ((given.flatMap Given.arguments ++ first :: rest).map Utf8.encode) outlet now =
        Program.begin s t ((given.flatMap Given.arguments).map Utf8.encode) outlet now := by
  have kept := ofArguments_given once (first :: rest) fun _ same => Option.some.inj same ▸ plain
  have alone := ofArguments_given once [] nofun
  rw [List.append_nil] at alone
  refine ⟨kept, ?_⟩
  intro s t outlet now
  rw [Program.begin, kept, Program.begin, alone]

/-! The browser adds an option of the program, the sign that ends options, and nothing. -/
namespace Appended

def given : List Given :=
  [⟨.printManifest, "a=b", true, 'a', rfl, by decide⟩, ⟨.logLevel, "debug", false, 'd', rfl, by decide⟩]

def rest : List String := ["--print-manifest", "other", "--", "", "--help"]

theorem kept_as_given : (given.map (·.setting)).Nodup ∧ Plain "/manifest.json" ∧
    given.flatMap Given.arguments = ["--print-manifest=a=b", "--log-level", "debug"] ∧
    ofArguments ((given.flatMap Given.arguments ++ "/manifest.json" :: rest).map Utf8.encode) =
      .ok ⟨some "debug", some "a=b", "/manifest.json" :: rest⟩ := by
  have once : (given.map (·.setting)).Nodup := by decide
  have plain : Plain "/manifest.json" := ⟨'/', rfl, by decide⟩
  exact ⟨once, plain, by decide, (browser_arguments_kept given once plain rest).1⟩

end Appended

end CommandLine
end StyleFeed
