import StyleFeed.Proofs.Moves

/-!
Whatever happened, whatever the tree has become and whatever is remembered, an event calls for some messages, and each
of them has a ground (`Feed.exists_messages`): a style sheet that can be read, the name of one that is gone or was
moved, or a name that is remembered.
-/

namespace StyleFeed
namespace Feed

/-- What a message goes back to. -/
inductive Grounded (f : Feed) (t : Tree) : Message → Prop
  | created {p : Path} {name content : String} (sheet : f.root.isSheet p) (named : f.root.name p = .ok name)
      (read : t.readText p = .ok content) : Grounded f t (.created name content)
  | modified {p : Path} {name content : String} (sheet : f.root.isSheet p) (named : f.root.name p = .ok name)
      (read : t.readText p = .ok content) : Grounded f t (.modified name content)
  | deleted {p : Path} {name : String} (sheet : f.root.isSheet p) (named : f.root.name p = .ok name) :
      Grounded f t (.deleted name)
  | forgotten {name : String} (known : name ∈ f.known) : Grounded f t (.deleted name)
  | renamed {src dest : Path} {oldName newName : String} (sheet : f.root.isSheet src)
      (sheet' : f.root.isSheet dest) (named : f.root.name src = .ok oldName)
      (named' : f.root.name dest = .ok newName) : Grounded f t (.renamed oldName newName)

variable (f : Feed) (t : Tree)

/-- A style sheet that cannot be read costs its message and nothing else. -/
theorem exists_withContent {p : Path} (sheet : f.root.isSheet p) (build : String → String → Message) :
    ∃ m, f.withContent t p build = .ok m ∧ ∀ x ∈ m, ∃ name content, f.root.name p = .ok name ∧
      t.readText p = .ok content ∧ x = build name content := by
  obtain ⟨name, named⟩ := Root.name_of_isSheet sheet
  rw [withContent, named]
  cases read : t.readText p with
  | error cause => exact ⟨none, rfl, fun x hx => absurd hx (Option.not_mem_none x)⟩
  | ok content =>
    refine ⟨some (build name content), rfl, ?_⟩
    intro x hx
    exact ⟨name, content, rfl, rfl, (Option.mem_some.mp hx).symm⟩

variable {f t}

theorem grounded_of_report {p : Path} {m : Message} (sheet : f.root.isSheet p) (h : f.report? t p = some m) :
    f.Grounded t m := by
  obtain ⟨name, content, named, read, rfl⟩ := report?_eq_some_iff.mp h
  exact .created sheet named read

theorem grounded_of_mem_reports {dir : Path} {m : Message} (h : m ∈ f.reports t dir) : f.Grounded t m := by
  obtain ⟨p, hp, found⟩ := List.mem_filterMap.mp h
  exact grounded_of_report (Tree.isSheet_of_mem_sheets hp) found

variable (f t)

theorem grounded_of_move? {src dest : Path} {m : Message} (h : f.move? t src dest = some m) : f.Grounded t m := by
  rcases move?_cases h with ⟨_, _, sheet, sheet', named, named', -, rfl⟩ | ⟨_, sheet, named, rfl⟩ | ⟨-, sheet', said⟩
  · exact .renamed sheet sheet' named named'
  · exact .deleted sheet named
  · exact grounded_of_report sheet' said

theorem exists_messagesAbout (c : Change) :
    ∃ ms, f.messagesAbout t c = .ok ms ∧ ∀ m ∈ ms, f.Grounded t m := by
  cases c with
  | created p =>
    refine ⟨_, f.messages_creation t p, fun m hm => ?_⟩
    split at hm
    · exact grounded_of_mem_reports hm
    split at hm
    · exact grounded_of_report ‹_› (Option.mem_toList.mp hm)
    · cases hm
  | deleted p =>
    refine ⟨_, f.messages_deletion t p, List.forall_mem_map.mpr fun n hn => ?_⟩
    rcases List.mem_append.mp hn with own | below
    · have ⟨sheet, named⟩ := Root.mem_ownName.mp own
      exact .deleted sheet named
    · exact .forgotten (Names.mem_filter.mp below).1
  | modified p =>
    by_cases sheet : f.root.isSheet p ∧ t.isDirectory p = false
    · obtain ⟨m, said, content⟩ := f.exists_withContent t sheet.1 .modified
      refine ⟨_, messages_modified sheet.1 sheet.2 said, ?_⟩
      intro x hx
      obtain ⟨name, content, named, read, rfl⟩ := content x (Option.mem_toList.mp hx)
      exact .modified sheet.1 named read
    · exact ⟨[], messages_modified_other sheet, List.forall_mem_nil _⟩
  | moved src dest =>
    cases directory : t.isDirectory dest with
    | true =>
      obtain ⟨kept, -, called⟩ := f.exists_movedDirectory t src dest
      refine ⟨_, (messages_moved_directory directory).trans called, ?_⟩
      intro m hm
      rcases List.mem_append.mp hm with hm | hm
      · obtain ⟨x, -, said⟩ := List.mem_filterMap.mp hm
        exact f.grounded_of_move? t said
      · obtain ⟨n, hn, rfl⟩ := List.mem_map.mp hm
        exact .forgotten (Names.mem_filter.mp hn).1
    | false =>
      exact ⟨_, messages_moved_file directory (f.movedFile_eq t src dest),
        fun x hx => f.grounded_of_move? t (Option.mem_toList.mp hx)⟩

/-- No event is without an answer, and no answer without a ground. -/
theorem exists_messages (e : Event) : ∃ ms, f.messages t e = .ok ms ∧ ∀ m ∈ ms, f.Grounded t m := by
  cases e with
  | change c => exact f.exists_messagesAbout t c
  | rescan =>
    obtain ⟨names, -, called, -⟩ := f.messages_rescan t
    refine ⟨_, called, ?_⟩
    intro m hm
    rcases List.mem_append.mp hm with hm | hm
    · exact grounded_of_mem_reports hm
    · obtain ⟨n, hn, rfl⟩ := List.mem_map.mp hm
      exact .forgotten (List.mem_filter.mp hn).1

end Feed
end StyleFeed
