import StyleFeed.Proofs.Grounds
import StyleFeed.Proofs.Sending
import StyleFeed.Proofs.Splitting
import StyleFeed.Proofs.Undelivered

/-!
What is remembered decides only which names are taken back:

* `Feed.exists_answer`: the answer to a change is what is said of the paths of the change as the tree is, and then the
  deletions of those remembered names that are lost by it;
* `Names.settled`: whatever was remembered of a name, some messages leave it, bring it in or take it away;
* `Feed.Answer.handled`: what is remembered after an answer.
-/

namespace StyleFeed

open Message (Fits)

namespace Names

variable {ms : List Message} {n : String}

theorem mem_foldl_of_not_mentions (unmentioned : ∀ m ∈ ms, ¬ m.Mentions n) (k : Names) :
    n ∈ ms.foldl record k ↔ n ∈ k := by
  induction ms generalizing k with
  | nil => rfl
  | cons m ms ih =>
    have ⟨first, rest⟩ := List.forall_mem_cons.mp unmentioned
    rw [List.foldl_cons, ih rest, mem_record_of_not_mentions first]

/-- A message leaves a name as it is, or brings it in, or takes it away. -/
theorem mem_record_cases (m : Message) (n : String) :
    (∀ k : Names, n ∈ k.record m ↔ n ∈ k) ∨
    (m.kind ≠ .deleted ∧ m.name = n ∧ ∀ k : Names, n ∈ k.record m) ∨
    ∀ k : Names, n ∉ k.record m := by
  by_cases mentioned : m.Mentions n
  · by_cases deletion : m.kind = .deleted
    · refine .inr (.inr fun k => ?_)
      cases m with
      | deleted name =>
        obtain rfl := Message.mentions_deleted.mp mentioned
        simp [record]
      | created | modified | renamed => cases deletion
    · by_cases same : m.name = n
      · refine .inr (.inl ⟨deletion, same, fun k => ?_⟩)
        exact (mem_record deletion).mpr (.inr same)
      · refine .inr (.inr fun k => ?_)
        have old : m.oldName? = some n := mentioned.resolve_left same
        rw [mem_record deletion]
        simp [old, same]
  · exact .inl (mem_record_of_not_mentions mentioned)

/-- The last message that speaks of a name settles it. -/
theorem settled (ms : List Message) (n : String) :
    (∀ k : Names, n ∈ ms.foldl record k ↔ n ∈ k) ∨
    (∃ m ∈ ms, m.kind ≠ .deleted ∧ m.name = n ∧ ∀ k : Names, n ∈ ms.foldl record k) ∨
    ∀ k : Names, n ∉ ms.foldl record k := by
  induction ms with
  | nil => exact .inl fun _ => Iff.rfl
  | cons m ms ih =>
    rcases ih with left | ⟨x, hx, arrives, same, brought⟩ | gone
    · -- nothing after the first message speaks of the name
      simp only [List.foldl_cons, left]
      rcases mem_record_cases m n with kept | ⟨arrives, same, brought⟩ | gone
      · exact .inl kept
      · exact .inr (.inl ⟨m, List.mem_cons_self, arrives, same, brought⟩)
      · exact .inr (.inr gone)
    · exact .inr (.inl ⟨x, List.mem_cons_of_mem m hx, arrives, same, fun k => brought (k.record m)⟩)
    · exact .inr (.inr fun k => gone (k.record m))

/-- What becomes of a name does not depend on the others. -/
theorem mem_foldl_congr {k l : Names} (same : n ∈ k ↔ n ∈ l) : n ∈ ms.foldl record k ↔ n ∈ ms.foldl record l := by
  rcases settled ms n with left | ⟨_, -, -, -, brought⟩ | gone
  · rw [left, left, same]
  · simp [brought]
  · simp [gone]

end Names

/-! ## Of which places is spoken -/

namespace Path

variable {p q : Path}

theorem same_extend (same : p.same q) (x : Route) : (p.extend x).same (q.extend x) := by
  rw [same_iff, components_extend, components_extend, same_iff.mp same]

theorem below?_of_same (same : p.same q) (base : Path) : p.below? base = q.below? base := by
  rw [below?, below?, same_iff.mp same]

end Path

namespace Root

variable {root : Root} {p q : Path} {n : String}

theorem isSheet_of_same (same : p.same q) (sheet : root.isSheet q) : root.isSheet p := by
  rw [isSheet, Path.below?_of_same same]
  exact sheet

/-- A place has one name, however its path is spelt. -/
theorem name_of_same (same : p.same q) (named : root.name q = .ok n) : root.name p = .ok n := by
  rw [name, below] at named ⊢
  rw [Path.below?_of_same same]
  split
  · rename_i cs found
    rw [found] at named
    exact named
  · rename_i outside
    rw [outside] at named
    cases named

end Root

/-- The paths that the change is about. -/
def Change.paths : Change → List Path
  | .created p | .deleted p | .modified p => [p]
  | .moved src dest => [src, dest]

@[simp]
theorem Change.src_mem_paths {src dest : Path} : src ∈ (moved src dest).paths := List.mem_cons_self

@[simp]
theorem Change.dest_mem_paths {src dest : Path} : dest ∈ (moved src dest).paths :=
  List.mem_cons_of_mem src List.mem_cons_self

/-- The path is one of the change, or goes on from there by names. -/
def Change.Concerns (c : Change) (q : Path) : Prop := ∃ p ∈ c.paths, ∃ x : Route, q = p.extend x

theorem Change.concerns_of_mem {c : Change} {p : Path} (h : p ∈ c.paths) : c.Concerns p := ⟨p, h, [], rfl⟩

namespace Feed

variable {f g : Feed} {t : Tree} {c : Change} {said : List Message} {lost : String → Bool}

/-- The message is about style sheets that the change concerns. -/
def About (f : Feed) (c : Change) (m : Message) : Prop :=
  ∀ n, m.Mentions n → ∃ q, c.Concerns q ∧ f.root.isSheet q ∧ f.root.name q = .ok n

/-- Whatever is remembered, some messages are the answer to the change, and then the deletions of the remembered names
that are lost by it. -/
structure Answer (f : Feed) (t : Tree) (c : Change) (said : List Message) (lost : String → Bool) : Prop where
  called : ∀ g : Feed, g.root = f.root →
    g.messages t (.change c) = .ok (said ++ (g.known.filter lost).toList.map .deleted)
  about : ∀ m ∈ said, f.About c m
  below : ∀ n, lost n → ∃ p ∈ c.paths, f.root.Holds p n
  /-- What comes in is lost only where a directory has moved into or out of what it was in. -/
  entangled : ∀ m ∈ said, m.kind ≠ .deleted → lost m.name → ∃ src dest, c = .moved src dest ∧ ¬ src.same dest ∧
    f.root.Holds src m.name ∧
    ∃ x, x ≠ [] ∧ f.root.isSheet (dest.extend x) ∧ f.root.name (dest.extend x) = .ok m.name

/-- An answer by which no name is lost. -/
theorem Answer.of_said (called : ∀ g : Feed, g.root = f.root → g.messages t (.change c) = .ok said)
    (about : ∀ m ∈ said, f.About c m) : f.Answer t c said fun _ => false where
  called g same := by
    rw [called g same]
    simp [Names.filter]
  about := about
  below n h := nomatch h
  entangled m _ _ h := nomatch h

theorem about_report {q : Path} {m : Message} (concerned : c.Concerns q) (sheet : f.root.isSheet q)
    (said : f.report? t q = some m) : f.About c m := by
  obtain ⟨name, content, named, -, rfl⟩ := report?_eq_some_iff.mp said
  intro n mentioned
  obtain rfl := Message.mentions_created.mp mentioned
  exact ⟨q, concerned, sheet, named⟩

theorem about_move? {src dest : Path} {m : Message} (concerned : c.Concerns src) (concerned' : c.Concerns dest)
    (said : f.move? t src dest = some m) : f.About c m := by
  rcases move?_cases said with
    ⟨oldName, newName, sheet, sheet', named, named', -, rfl⟩ | ⟨name, sheet, named, rfl⟩ | ⟨-, sheet', said⟩
  · intro n mentioned
    rcases Message.mentions_renamed.mp mentioned with rfl | rfl
    · exact ⟨dest, concerned', sheet', named'⟩
    · exact ⟨src, concerned, sheet, named⟩
  · intro n mentioned
    obtain rfl := Message.mentions_deleted.mp mentioned
    exact ⟨src, concerned, sheet, named⟩
  · exact about_report concerned' sheet' said

variable (f t)

theorem answer_created (p : Path) : ∃ said, f.Answer t (.created p) said fun _ => false := by
  refine ⟨if t.isDirectory p then f.reports t p else if f.root.isSheet p then (f.report? t p).toList else [],
    .of_said (fun g same => ?_) ?_⟩
  · rw [messages_creation, reports_congr same, report?_congr same, same]
  · intro m hm
    split at hm
    · obtain ⟨q, hq, said⟩ := List.mem_filterMap.mp hm
      obtain ⟨x, hx, rfl⟩ := List.mem_map.mp hq
      exact about_report ⟨p, List.mem_cons_self, x, rfl⟩ (List.mem_filter.mp hx).2 said
    split at hm
    · exact about_report (Change.concerns_of_mem List.mem_cons_self) ‹_› (Option.mem_toList.mp hm)
    · cases hm

theorem answer_modified (p : Path) : ∃ said, f.Answer t (.modified p) said fun _ => false := by
  by_cases sheet : f.root.isSheet p ∧ t.isDirectory p = false
  · obtain ⟨m, said, content⟩ := f.exists_withContent t sheet.1 .modified
    refine ⟨m.toList, .of_said ?_ ?_⟩
    · intro g same
      have again : g.withContent t p .modified = .ok m := by
        rw [withContent, same]
        exact said
      exact messages_modified (same ▸ sheet.1) sheet.2 again
    · intro x hx n mentioned
      obtain ⟨name, text, named, -, rfl⟩ := content x (Option.mem_toList.mp hx)
      obtain rfl := Message.mentions_modified.mp mentioned
      exact ⟨p, Change.concerns_of_mem List.mem_cons_self, sheet.1, named⟩
  · refine ⟨[], .of_said ?_ (List.forall_mem_nil _)⟩
    intro g same
    exact messages_modified_other (same ▸ sheet)

/-- What is deleted loses the remembered names below it. -/
theorem answer_deleted (p : Path) :
    f.Answer t (.deleted p) ((f.root.ownName p).map .deleted) fun n => f.root.Holds p n where
  called g same := by rw [messages_deletion, same, List.map_append]
  about := by
    intro m hm n mentioned
    obtain ⟨name, own, rfl⟩ := List.mem_map.mp hm
    obtain rfl := Message.mentions_deleted.mp mentioned
    exact ⟨p, Change.concerns_of_mem List.mem_cons_self, Root.mem_ownName.mp own⟩
  below n holds := ⟨p, List.mem_cons_self, of_decide_eq_true holds⟩
  entangled := by
    intro m hm arrives
    obtain ⟨name, -, rfl⟩ := List.mem_map.mp hm
    exact absurd rfl arrives

variable {f t}

theorem answer_movedFile {src dest : Path} (noDirectory : t.isDirectory dest = false) :
    f.Answer t (.moved src dest) (f.move? t src dest).toList fun _ => false := by
  apply Answer.of_said
  · intro g same
    rw [messages_moved_file noDirectory (g.movedFile_eq t src dest), move?_congr same]
  · intro m hm
    exact about_move? (Change.concerns_of_mem Change.src_mem_paths) (Change.concerns_of_mem Change.dest_mem_paths)
      (Option.mem_toList.mp hm)

/-- What has come in by a move has not the name that it had. -/
theorem arrived_of_move? {src dest : Path} {m : Message} (said : f.move? t src dest = some m)
    (arrives : m.kind ≠ .deleted) :
    f.root.isSheet dest ∧ f.root.name dest = .ok m.name ∧ (f.root.isSheet src → f.root.name src ≠ .ok m.name) := by
  rcases move?_cases said with
    ⟨oldName, newName, -, sheet', named, named', other, rfl⟩ | ⟨name, -, -, rfl⟩ | ⟨boring, sheet', said⟩
  · refine ⟨sheet', named', fun _ same => ?_⟩
    exact other (Except.ok.inj (named.symm.trans same))
  · exact absurd rfl arrives
  · obtain ⟨name, content, named, -, rfl⟩ := report?_eq_some_iff.mp said
    exact ⟨sheet', named, fun sheet => absurd sheet (Bool.eq_false_iff.mp boring)⟩

/-- A directory that was moved loses the remembered names below its old place that no style sheet in it has had. -/
theorem answer_movedDirectory {src dest : Path} (directory : t.isDirectory dest) :
    ∃ said lost, f.Answer t (.moved src dest) said lost := by
  obtain ⟨names, mem, -⟩ := f.exists_movedDirectory t src dest
  refine ⟨(t.sheetRoutes f.root dest).filterMap fun x => f.move? t (src.extend x) (dest.extend x),
    fun n => f.root.Holds src n ∧ n ∉ names, ?_, ?_, ?_, ?_⟩
  · intro g same
    obtain ⟨names', mem', called⟩ := g.exists_movedDirectory t src dest
    have lost : (fun n => decide (g.root.Holds src n ∧ n ∉ names')) =
        fun n => decide (f.root.Holds src n ∧ n ∉ names) := by
      funext n
      rw [decide_eq_decide, mem, mem', same]
    rw [messages_moved_directory directory, called, move?_congr same, lost, same]
  · intro m hm
    obtain ⟨x, -, said⟩ := List.mem_filterMap.mp hm
    exact about_move? ⟨src, Change.src_mem_paths, x, rfl⟩ ⟨dest, Change.dest_mem_paths, x, rfl⟩ said
  · intro n lost
    exact ⟨src, List.mem_cons_self, (of_decide_eq_true lost).1⟩
  · intro m hm arrives lost
    obtain ⟨x, hx, said⟩ := List.mem_filterMap.mp hm
    obtain ⟨sheet, named, other⟩ := arrived_of_move? said arrives
    refine ⟨src, dest, rfl, fun same => ?_, (of_decide_eq_true lost).1, x, ?_, sheet, named⟩
    · -- a directory that has stayed where it was has what it had
      have stayed : (src.extend x).same (dest.extend x) := Path.same_extend same x
      exact other (Root.isSheet_of_same stayed sheet) (Root.name_of_same stayed named)
    · rw [Ne, Tree.eq_nil_iff_of_mem_sheetRoutes hx, directory]
      exact Bool.noConfusion

theorem exists_answer (f : Feed) (t : Tree) (c : Change) : ∃ said lost, f.Answer t c said lost := by
  cases c with
  | created p =>
    obtain ⟨said, answer⟩ := f.answer_created t p
    exact ⟨said, _, answer⟩
  | deleted p => exact ⟨_, _, f.answer_deleted t p⟩
  | modified p =>
    obtain ⟨said, answer⟩ := f.answer_modified t p
    exact ⟨said, _, answer⟩
  | moved src dest =>
    cases directory : t.isDirectory dest with
    | true => exact answer_movedDirectory directory
    | false => exact ⟨_, _, answer_movedFile directory⟩

/-- The messages that fit are sent, and a remembered name that is lost is forgotten if that can be sent. -/
theorem Answer.handled (answer : f.Answer t c said lost) (same : g.root = f.root) (faultless : g.outlet.Faultless) :
    ∃ k, g.handle t (.change c) = (.ok (), k) ∧ k.root = f.root ∧ k.limit = g.limit ∧ k.outlet.Faultless ∧
      ∀ n, n ∈ k.known ↔ n ∈ (said.filter (Fits g.limit ·)).foldl Names.record g.known ∧
        ¬ (n ∈ g.known ∧ lost n ∧ Fits g.limit (.deleted n)) := by
  obtain ⟨k, handled, sent, faultless'⟩ := handle_of_faultless faultless (answer.called g same)
  refine ⟨k, handled, sent.root.trans same, sent.limit, faultless', fun n => ?_⟩
  have gone : n ∈ (g.known.filter lost).toList.filter ((Fits g.limit ·) ∘ Message.deleted) ↔
      n ∈ g.known ∧ lost n ∧ Fits g.limit (.deleted n) := by
    rw [List.mem_filter, Names.mem_toList, Names.mem_filter, and_assoc]
    simp
  rw [sent.known, List.filter_append, List.filter_map, List.foldl_append, Names.mem_foldl_deleted, gone]

end Feed
end StyleFeed
