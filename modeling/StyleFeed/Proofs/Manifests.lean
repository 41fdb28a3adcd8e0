import StyleFeed.Manifest
import StyleFeed.Proofs.Values

/-!
What a manifest says is what it was made for: `Manifest.read_as_given`. Nothing in the path or in the name
of the extension can end the quoted text that it is written as.
-/

namespace StyleFeed
namespace Manifest

open Json (Value)

theorem numberless_fields (executable extension : String) : (fields executable extension).Numberless := by
  have single : (Value.list [.text extension]).Numberless :=
    .list fun v mem => List.mem_singleton.mp mem ▸ .text extension
  refine .object fun f mem => ?_
  simp only [List.mem_cons, List.not_mem_nil, or_false] at mem
  rcases mem with rfl | rfl | rfl | rfl | rfl
  case inr.inr.inr.inr => exact single
  all_goals exact .text _

theorem json_of_text {m : Manifest} {path : String} (text : m.executable.bytes = Utf8.encode path) :
    m.json = .ok (String.ofList ((fields path m.extension).indented 0)) := by
  rw [json, text, Utf8.decode?_encode]

theorem json_of_no_text {m : Manifest} (noText : ∀ path, m.executable.bytes ≠ Utf8.encode path) :
    m.json = .error (.serial .pathNotText) := by
  rw [json]
  cases decoded : Utf8.decode? m.executable.bytes with
  | none => rfl
  | some path => exact absurd (Utf8.decode?_eq_some_iff.mp decoded).symm (noText path)

theorem exists_of_json {m : Manifest} {text : String} (h : m.json = .ok text) :
    ∃ path, m.executable.bytes = Utf8.encode path := by
  by_cases text : ∃ path, m.executable.bytes = Utf8.encode path
  · exact text
  · cases (json_of_no_text (not_exists.mp text)).symm.trans h

theorem read_text (path extension : String) :
    Value.read (Utf8.encode (String.ofList ((fields path extension).indented 0))) = .ok (fields path extension) := by
  rw [Utf8.encode_ofList]
  exact Value.read_indented (numberless_fields path extension) 0

theorem fields_injective {path path' extension extension' : String}
    (h : fields path extension = fields path' extension') : path = path' ∧ extension = extension' := by
  simpa [fields] using h

theorem eq_of_json {m m' : Manifest} {text : String} (h : m.json = .ok text) (h' : m'.json = .ok text) : m = m' := by
  obtain ⟨path, bytes⟩ := exists_of_json h
  obtain ⟨path', bytes'⟩ := exists_of_json h'
  rw [json_of_text bytes] at h
  rw [json_of_text bytes'] at h'
  have read := read_text path m.extension
  rw [Except.ok.inj (h.trans h'.symm), read_text path' m'.extension] at read
  obtain ⟨rfl, extension⟩ := fields_injective (Except.ok.inj read)
  obtain ⟨⟨_⟩, _⟩ := m
  obtain ⟨⟨_⟩, _⟩ := m'
  cases bytes
  cases bytes'
  cases extension
  rfl

/-- The text of a manifest is read as an object of five fields, in which nothing but the path and the one extension
depends on the manifest, whatever characters these hold. So different manifests have different texts. For a path that
is no text there is none. -/
theorem read_as_given (m : Manifest) :
    (∀ path, m.executable.bytes = Utf8.encode path → ∃ text, m.json = .ok text ∧
      Value.read (Utf8.encode text) = .ok (.object [
        ("name", .text "watch_dir"),
        ("description", .text "Reports user style sheet changes to the browser"),
        ("path", .text path),
        ("type", .text "stdio"),
        ("allowed_extensions", .list [.text m.extension])])) ∧
    ((∀ path, m.executable.bytes ≠ Utf8.encode path) → m.json = .error (.serial .pathNotText)) ∧
    ∀ m' text, m.json = .ok text → m'.json = .ok text → m = m' := by
  refine ⟨fun path bytes => ?_, json_of_no_text, fun m' text => eq_of_json⟩
  exact ⟨_, json_of_text bytes, read_text path m.extension⟩

/-! Both texts try to end early and to allow a second extension. -/
namespace Forged

def path : String := "/opt/a\"],\n\t\"allowed_extensions\": [\"evil@example.org\\"

def extension : String := "styles@example.org\", \"evil@example.org\"]\x7d\x00\\\""

theorem one_extension : (∃ text, (Manifest.mk (.ofString path) extension).json = .ok text ∧
      Value.read (Utf8.encode text) = .ok (.object [
        ("name", .text "watch_dir"),
        ("description", .text "Reports user style sheet changes to the browser"),
        ("path", .text path),
        ("type", .text "stdio"),
        ("allowed_extensions", .list [.text extension])])) ∧
    (Manifest.mk ⟨[0x2f, 0xff]⟩ extension).json = .error (.serial .pathNotText) := by
  have noText : ∀ path, [0x2f, 0xff] ≠ Utf8.encode path := by
    intro path same
    have decoded := Utf8.decode?_encode path
    rw [← same] at decoded
    cases decoded
  exact ⟨(read_as_given ⟨.ofString path, extension⟩).1 path rfl, (read_as_given ⟨⟨[0x2f, 0xff]⟩, extension⟩).2.1 noText⟩

end Forged

end Manifest
end StyleFeed
