import StyleFeed.Proofs.Mirror

/-!
Which names the feed remembers without the browser having a style for them: those that came with a new name for
a style that the browser never got (`Feed.known_iff_on_shelf_or_undelivered`).
-/

namespace StyleFeed

open Message (Fits)

/-- The message is about a style that has the name, before or after it. -/
def Message.Mentions (m : Message) (n : String) : Prop := m.name = n ∨ m.oldName? = some n

namespace Message

variable {name content oldName newName n : String}

@[simp]
theorem mentions_created : (created name content).Mentions n ↔ name = n := by simp [Mentions, Message.name, oldName?]

@[simp]
theorem mentions_modified : (modified name content).Mentions n ↔ name = n := by simp [Mentions, Message.name, oldName?]

@[simp]
theorem mentions_deleted : (deleted name).Mentions n ↔ name = n := by simp [Mentions, Message.name, oldName?]

@[simp]
theorem mentions_renamed : (renamed oldName newName).Mentions n ↔ newName = n ∨ oldName = n := by
  simp [Mentions, Message.name, oldName?]

theorem mentions_iff {m : Message} : m.Mentions n ↔ m.Brings n ∨ m.Takes n := by
  cases m <;> simp [Brings, Takes]

end Message

/-- The last that was said of the name is that it is the new one of a style, when the browser had none under the
old name nor under this one. -/
def Undelivered (ms : List Message) (n : String) : Prop :=
  ∃ before old after, ms = before ++ .renamed old n :: after ∧ (∀ m ∈ after, ¬ m.Mentions n) ∧
    (Shelf.empty.receiveAll before).content? old = none ∧ (Shelf.empty.receiveAll before).content? n = none

section
variable {m : Message} {n : String} (unmentioned : ¬ m.Mentions n)
include unmentioned

theorem Shelf.receive_of_not_mentions (s : Shelf) : (s.receive m).content? n = s.content? n := by
  obtain ⟨other, notOld⟩ := not_or.mp unmentioned
  cases m with
  | created name c | modified name c => exact if_neg (Ne.symm other)
  | deleted name => exact if_neg (Ne.symm other)
  | renamed old new =>
    rw [receive]
    split
    · have notOld : n ≠ old := fun same => notOld (same ▸ rfl)
      simp [notOld, Ne.symm (show new ≠ n from other)]
    · rfl

theorem Names.mem_record_of_not_mentions (k : Names) : n ∈ k.record m ↔ n ∈ k := by
  obtain ⟨unbrought, untaken⟩ := not_or.mp (mt m.mentions_iff.mpr unmentioned)
  simp [mem_record_iff, unbrought, untaken]

end

namespace Undelivered

variable {ms : List Message} {m : Message} {n : String}

theorem not_nil : ¬ Undelivered [] n := by
  rintro ⟨before, old, after, whole, -⟩
  simp at whole

theorem concat_iff : Undelivered (ms ++ [m]) n ↔ (Undelivered ms n ∧ ¬ m.Mentions n) ∨
    ∃ old, m = .renamed old n ∧ (Shelf.empty.receiveAll ms).content? old = none ∧
      (Shelf.empty.receiveAll ms).content? n = none := by
  constructor
  · rintro ⟨before, old, after, whole, unmentioned, lacking⟩
    cases after using List.reverseRec with
    | nil =>
      obtain ⟨rfl, last⟩ := List.append_inj' whole rfl
      exact .inr ⟨old, List.head_eq_of_cons_eq last, lacking⟩
    | append_singleton after m' =>
      rw [← List.cons_append, ← List.append_assoc] at whole
      obtain ⟨rfl, last⟩ := List.append_inj' whole rfl
      obtain rfl : m = m' := List.head_eq_of_cons_eq last
      have ⟨unmentioned, now⟩ := List.forall_mem_append.mp unmentioned
      exact .inl ⟨⟨before, old, after, rfl, unmentioned, lacking⟩, now m List.mem_cons_self⟩
  · rintro (⟨⟨before, old, after, rfl, unmentioned, lacking⟩, now⟩ | ⟨old, rfl, lacking⟩)
    · refine ⟨before, old, after ++ [m], by simp, ?_, lacking⟩
      exact List.forall_mem_append.mpr ⟨unmentioned, List.forall_mem_singleton.mpr now⟩
    · exact ⟨ms, old, [], rfl, List.forall_mem_nil _, lacking⟩

end Undelivered

/-- After these messages the remembered names are those that the browser has a style for, and besides those
that are undelivered. -/
structure Believed (ms : List Message) : Prop where
  known : ∀ n, n ∈ ms.foldl Names.record .empty ↔
    (∃ c, (Shelf.empty.receiveAll ms).content? n = some c) ∨ Undelivered ms n
  apart : ∀ n, Undelivered ms n → (Shelf.empty.receiveAll ms).content? n = none

namespace Believed

variable {ms : List Message}

theorem nil : Believed [] where
  known n := by simp [Undelivered.not_nil, Shelf.receiveAll]
  apart n h := absurd h Undelivered.not_nil

/-- One message more, as far as one name is concerned. -/
theorem concat_at (h : Believed ms) (m : Message) (n : String) :
    (n ∈ (ms.foldl Names.record .empty).record m ↔
      (∃ c, ((Shelf.empty.receiveAll ms).receive m).content? n = some c) ∨ Undelivered (ms ++ [m]) n) ∧
    (Undelivered (ms ++ [m]) n → ((Shelf.empty.receiveAll ms).receive m).content? n = none) := by
  rw [Undelivered.concat_iff]
  by_cases mentioned : m.Mentions n
  · simp only [mentioned, not_true, and_false, false_or]
    cases m with
    | created name c =>
      obtain rfl := Message.mentions_created.mp mentioned
      simp [Names.record, Shelf.receive]
    | modified name c =>
      obtain rfl := Message.mentions_modified.mp mentioned
      simp [Names.record, Shelf.receive]
    | deleted name =>
      obtain rfl := Message.mentions_deleted.mp mentioned
      simp [Names.record, Shelf.receive]
    | renamed old new =>
      simp only [Message.renamed.injEq]
      by_cases isNew : new = n
      · subst isNew
        cases held : (Shelf.empty.receiveAll ms).content? old with
        | some c => simp [Names.record, Shelf.receive, held]
        | none =>
          cases there : (Shelf.empty.receiveAll ms).content? new <;>
            simp [Names.record, Shelf.receive, held, there]
      · obtain rfl : old = n := Option.some.inj (mentioned.resolve_left isNew)
        cases held : (Shelf.empty.receiveAll ms).content? old with
        | some c => simp [Names.record, Shelf.receive, held, isNew, Ne.symm isNew]
        | none => simp [Names.record, Shelf.receive, held, isNew, Ne.symm isNew]
  · have notNew : ¬ ∃ old, m = .renamed old n ∧ (Shelf.empty.receiveAll ms).content? old = none ∧
        (Shelf.empty.receiveAll ms).content? n = none := by
      rintro ⟨old, rfl, -⟩
      exact mentioned (.inl rfl)
    rw [Names.mem_record_of_not_mentions mentioned, Shelf.receive_of_not_mentions mentioned, h.known]
    simp only [mentioned, not_false_eq_true, and_true, notNew, or_false, true_and]
    exact h.apart n

theorem of_messages (ms : List Message) : Believed ms := by
  induction ms using List.reverseRecOn with
  | nil => exact nil
  | append_singleton ms m ih =>
    constructor
    · intro n
      rw [Shelf.receiveAll, List.foldl_append, List.foldl_append]
      exact (ih.concat_at m n).1
    · intro n
      rw [Shelf.receiveAll, List.foldl_append]
      exact (ih.concat_at m n).2

end Believed

/-- Over a whole run, on any trees and with any output, the names that are remembered are those that the browser
has a style for, and those that came with a new name for a style that it did not have. -/
theorem Feed.known_iff_on_shelf_or_undelivered (root : Root) (limit : Nat) (writes : List Outlet.Answer)
    (flushes : List (Option IoFault)) (t : Tree) (steps : List (Tree × Event)) :
    let f := start root limit ⟨writes, flushes, [], 0⟩
    let called := (f.calledFor ((t, .rescan) :: steps)).filter (Fits limit ·)
    let final := (f.run ((t, .rescan) :: steps)).2
    ∃ (ms : List Message) (r : Bytes),
      final.outlet.accepted = ms.flatMap Message.frame ++ r ∧
      ((ms = called ∧ r = []) ∨ ∃ m cause, ms ++ [m] <+: called ∧
        (f.run ((t, .rescan) :: steps)).1 = .error (.io cause) ∧ r <+: m.frame) ∧
      ∀ n, (n ∈ final.known ↔ (∃ c, (Shelf.empty.receiveAll ms).content? n = some c) ∨ Undelivered ms n) ∧
        (Undelivered ms n → (Shelf.empty.receiveAll ms).content? n = none) := by
  intro f called final
  have believed (ms : List Message) (known : final.known = ms.foldl Names.record .empty) (n : String) :
      (n ∈ final.known ↔ (∃ c, (Shelf.empty.receiveAll ms).content? n = some c) ∨ Undelivered ms n) ∧
        (Undelivered ms n → (Shelf.empty.receiveAll ms).content? n = none) := by
    rw [known]
    exact ⟨(Believed.of_messages ms).known n, (Believed.of_messages ms).apart n⟩
  rcases f.run_spec ((t, .rescan) :: steps) with sent | ⟨ms, m, cause, before, failed, broken⟩
  · refine ⟨called, [], ?_, .inl ⟨rfl, rfl⟩, believed called sent.known⟩
    rw [List.append_nil]
    exact sent.accepted
  · obtain ⟨taken, part, accepted⟩ := broken.accepted
    exact ⟨ms, taken, accepted, .inr ⟨m, cause, before, failed, part⟩, believed ms broken.known⟩

/-! ## A style sheet that is no text is renamed -/

namespace UnreadableSheet

open OneSheet (root top a b)

/-- The style sheet is the only one, and it cannot be read. -/
def holding (n : FileName) : Tree where
  entries := [(top, .directory), (top ++ [n], .file [0xff])]
  workplace := []
  distinct := by simp
  rooted := by simp [top]

/-- A scan, and then the rename. -/
def renamed : Except Fault Unit × Feed :=
  (Feed.start root 1024 .willing).run [(holding a, .rescan),
    (holding b, .change (.moved (root.path.extend [a]) (root.path.extend [b])))]

/-- The feed knows the new name, and the browser never got any content. -/
theorem known_without_content :
    Touch root top (holding a) (.moved (root.path.extend [a]) (root.path.extend [b])) (holding b) ∧
    renamed.1 = .ok () ∧ renamed.2.outlet.accepted = [Message.renamed "a" "b"].flatMap Message.frame ∧
    "b" ∈ renamed.2.known ∧
    ¬ ∀ n ∈ renamed.2.known, ∃ c, (Shelf.empty.receiveAll [.renamed "a" "b"]).content? n = some c := by
  have known : "b" ∈ renamed.2.known := by decide +kernel
  have lacking : (Shelf.empty.receiveAll [.renamed "a" "b"]).content? "b" = none := by decide
  refine ⟨?_, by decide +kernel, by decide +kernel, known, fun delivered => ?_⟩
  · apply Touch.rename (e := .file [0xff])
    · decide
    · intro x hx
      exact nomatch hx
    · rfl
  · obtain ⟨c, hc⟩ := delivered "b" known
    rw [lacking] at hc
    cases hc

end UnreadableSheet
end StyleFeed
