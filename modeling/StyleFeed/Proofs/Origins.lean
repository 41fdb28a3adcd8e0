import StyleFeed.Proofs.Grounds
import StyleFeed.Proofs.Sending
import StyleFeed.Proofs.Undelivered

/-!
Nothing but style sheets is ever spoken of, whatever happens and on whatever trees: every name that goes out or is
remembered is that of a style sheet, also where nobody looks at its path any more, and every content was read from one
(`Feed.only_style_sheets_told`). What such a name looks like is `IsLogical`.
-/

namespace StyleFeed

open Message (Fits)

/-- Parts with slashes between them, none of them empty or `.git`, and the last of them not hidden. -/
structure IsLogical (n : String) : Prop where
  part : ∀ p ∈ n.toList.splitOn '/', p ≠ [] ∧ p ≠ ".git".toList
  last : ∃ before last, n.toList.splitOn '/' = before ++ [last] ∧ last.head? ≠ some '.'

namespace FileName

theorem eq_git_of_text {n : FileName} (h : n.text.toList = ".git".toList) : n = .git := by
  have ascii : ∀ c ∈ ".git".toList, Utf8.IsAscii c := by simp [Utf8.IsAscii]
  have same : n.bytes = Utf8.encode ".git" := bytes_of_text ascii (String.toList_inj.mp h)
  rw [show Utf8.encode ".git" = FileName.git.bytes by decide +kernel] at same
  cases n
  cases same
  rfl

/-- What a style sheet is called without its extension begins as it does, with no dot. -/
theorem text_head?_ne_dot {n m : FileName} (sheet : n.isSheet) (text : m.IsText)
    (whole : n.bytes = m.bytes ++ dot :: sheetExtension) : m.text.toList.head? ≠ some '.' := by
  intro dotted
  obtain ⟨rest, shown⟩ := List.head?_eq_some_iff.mp dotted
  have first : m.bytes.head? = some dot := by
    rw [← encode_text text, Utf8.encode, shown]
    rfl
  have hidden : n.isHidden := by
    rw [isHidden, whole, List.head?_append, first]
    rfl
  simp [isSheet, hidden] at sheet

end FileName

/-- The parts of a style sheet's name are the names on its way, the last one without the extension. -/
theorem Route.exists_splitOn_logicalName {d : Route} {n : FileName} (sheet : n.isSheet) :
    ∃ m : FileName, m.text.toList.head? ≠ some '.' ∧
      (logicalName (d ++ [n])).toList.splitOn '/' = (d ++ [m]).map fun n => n.text.toList := by
  obtain ⟨m, whole, text, short⟩ := logicalName_concat (d := d) sheet
  refine ⟨m, FileName.text_head?_ne_dot sheet text whole, ?_⟩
  rw [short, splitOn_joined (by simp)]
  exact List.map_map

theorem Route.isLogical_logicalName {r : Route} (h : r.IsSheet) : IsLogical r.logicalName := by
  obtain ⟨d, n, rfl, sheet⟩ := h.exists_concat
  obtain ⟨m, visible, parts⟩ := exists_splitOn_logicalName (d := d) sheet
  constructor
  · rw [parts]
    intro p hp
    obtain ⟨x, hx, rfl⟩ := List.mem_map.mp hp
    apply And.intro x.text_ne_nil
    intro hidden
    obtain rfl := FileName.eq_git_of_text hidden
    rcases List.mem_append.mp hx with hx | hx
    · exact h.git_notMem (List.mem_append_left _ hx)
    · obtain rfl := List.mem_singleton.mp hx
      exact visible (by decide)
  · exact ⟨_, _, by rw [parts, List.map_append, List.map_singleton], visible⟩

namespace Root

/-- Some style sheet below the root has the name. -/
def IsName (root : Root) (n : String) : Prop := ∃ p, root.isSheet p ∧ root.name p = .ok n

theorem IsName.isLogical {root : Root} {n : String} (h : root.IsName n) : IsLogical n := by
  obtain ⟨p, sheet, named⟩ := h
  obtain ⟨r, isSheet, logical, -⟩ := exists_route_of_isSheet sheet
  obtain rfl := Except.ok.inj (logical.symm.trans named)
  exact Route.isLogical_logicalName isSheet

/-- The message is about style sheets only, and its content is what can be read there. -/
def Permits (root : Root) (t : Tree) : Message → Prop
  | .created name content | .modified name content =>
    ∃ p, root.isSheet p ∧ root.name p = .ok name ∧ t.readText p = .ok content
  | .deleted name => root.IsName name
  | .renamed oldName newName => root.IsName oldName ∧ root.IsName newName

theorem Permits.isName {root : Root} {t : Tree} {m : Message} {n : String} (h : root.Permits t m)
    (mentioned : m.Mentions n) : root.IsName n := by
  cases m with
  | created name content =>
    obtain ⟨p, sheet, named, -⟩ := h
    obtain rfl := Message.mentions_created.mp mentioned
    exact ⟨p, sheet, named⟩
  | modified name content =>
    obtain ⟨p, sheet, named, -⟩ := h
    obtain rfl := Message.mentions_modified.mp mentioned
    exact ⟨p, sheet, named⟩
  | deleted name =>
    obtain rfl := Message.mentions_deleted.mp mentioned
    exact h
  | renamed oldName newName =>
    rcases Message.mentions_renamed.mp mentioned with rfl | rfl
    · exact h.2
    · exact h.1

end Root

namespace Names

theorem exists_mentions_of_mem {ms : List Message} {s : Names} {n : String} (h : n ∈ ms.foldl record s) :
    n ∈ s ∨ ∃ m ∈ ms, m.Mentions n := by
  induction ms generalizing s with
  | nil => exact .inl h
  | cons m ms ih =>
    rcases ih h with first | ⟨x, hx, mentioned⟩
    · by_cases mentioned : m.Mentions n
      · exact .inr ⟨m, List.mem_cons_self, mentioned⟩
      · exact .inl ((mem_record_of_not_mentions mentioned s).mp first)
    · exact .inr ⟨x, List.mem_cons_of_mem _ hx, mentioned⟩

end Names

namespace Feed

/-- Only names of style sheets are remembered. -/
def Decent (f : Feed) : Prop := ∀ n ∈ f.known, f.root.IsName n

theorem Decent.permits {f : Feed} (h : f.Decent) {t : Tree} {m : Message} (grounded : f.Grounded t m) :
    f.root.Permits t m := by
  cases grounded with
  | created sheet named read => exact ⟨_, sheet, named, read⟩
  | modified sheet named read => exact ⟨_, sheet, named, read⟩
  | deleted sheet named => exact ⟨_, sheet, named⟩
  | forgotten known => exact h _ known
  | renamed sheet sheet' named named' => exact ⟨⟨_, sheet, named⟩, ⟨_, sheet', named'⟩⟩

/-- The messages that are called for in a run, each with the tree on which it is. -/
def calledOn (f : Feed) : List (Tree × Event) → List (Tree × Message)
  | [] => []
  | (t, e) :: rest =>
    match f.messages t e with
    | .error _ => []
    | .ok ms =>
      match f.send ms with
      | (.ok (), f) => ms.map (t, ·) ++ f.calledOn rest
      | (.error _, _) => ms.map (t, ·)

theorem map_snd_calledOn (f : Feed) (steps : List (Tree × Event)) :
    (f.calledOn steps).map Prod.snd = f.calledFor steps := by
  have same (t : Tree) (ms : List Message) : (ms.map (t, ·)).map Prod.snd = ms := by simp
  induction steps generalizing f with
  | nil => rfl
  | cons step rest ih =>
    obtain ⟨t, e⟩ := step
    rw [calledOn, calledFor]
    cases f.messages t e with
    | error fault => rfl
    | ok ms =>
      rcases sent : f.send ms with ⟨_ | _, g⟩
      · simp only [sent, same]
      · simp only [sent, List.map_append, same, ih]

/-- However many of the messages of an event are sent, the names are still those of style sheets. -/
theorem Decent.send {f : Feed} (h : f.Decent) {t : Tree} {ms : List Message}
    (permitted : ∀ m ∈ ms, f.root.Permits t m) : (f.send ms).2.Decent := by
  have afterSome {sent : List Message} (some : ∀ m ∈ sent, m ∈ ms) :
      ∀ n ∈ sent.foldl Names.record f.known, f.root.IsName n := by
    intro n hn
    rcases Names.exists_mentions_of_mem hn with known | ⟨m, hm, mentioned⟩
    · exact h n known
    · exact (permitted m (some m hm)).isName mentioned
  rw [Decent, send_root]
  rcases f.send_spec ms with ⟨g, sent, all⟩ | ⟨part, m, cause, g, before, failed, broken⟩
  · rw [sent, all.known]
    exact afterSome fun m hm => List.mem_of_mem_filter hm
  · rw [failed, broken.known]
    exact afterSome fun x hx => List.mem_of_mem_filter (before.mem (List.mem_append_left _ hx))

theorem Decent.run {f : Feed} (h : f.Decent) (steps : List (Tree × Event)) :
    (f.run steps).2.root = f.root ∧ (f.run steps).2.Decent ∧
      ∀ x ∈ f.calledOn steps, f.root.Permits x.1 x.2 := by
  induction steps generalizing f with
  | nil => exact ⟨rfl, h, List.forall_mem_nil _⟩
  | cons step rest ih =>
    obtain ⟨t, e⟩ := step
    obtain ⟨ms, called, grounded⟩ := f.exists_messages t e
    have permitted : ∀ m ∈ ms, f.root.Permits t m := fun m hm => h.permits (grounded m hm)
    have about : ∀ x ∈ ms.map (t, ·), f.root.Permits x.1 x.2 := List.forall_mem_map.mpr permitted
    have same := f.send_root ms
    have decent := h.send permitted
    rw [Feed.run, handle, calledOn, called]
    rcases sent : f.send ms with ⟨_ | _, g⟩ <;> rw [sent] at same decent <;> simp only [sent]
    · exact ⟨same, decent, about⟩
    · obtain ⟨same', decent', later⟩ := ih decent
      refine ⟨same'.trans same, decent', List.forall_mem_append.mpr ⟨about, ?_⟩⟩
      rw [← same]
      exact later

/-- A run puts out messages that were called for, each on a tree: all that fit, or the first of them and a part of the
next. -/
theorem accepted_of_run (f : Feed) (steps : List (Tree × Event)) :
    ∃ (sent : List (Tree × Message)) (r : Bytes),
      (f.run steps).2.outlet.accepted = f.outlet.accepted ++ sent.flatMap (·.2.frame) ++ r ∧
      ((sent = (f.calledOn steps).filter (Fits f.limit ·.2) ∧ r = []) ∨
        ∃ x, sent ++ [x] <+: (f.calledOn steps).filter (Fits f.limit ·.2) ∧ r <+: x.2.frame) := by
  have frames (sent : List (Tree × Message)) :
      (sent.map Prod.snd).flatMap Message.frame = sent.flatMap (·.2.frame) := List.flatMap_map ..
  have fitting : (f.calledFor steps).filter (Fits f.limit ·) =
      ((f.calledOn steps).filter (Fits f.limit ·.2)).map Prod.snd := by
    rw [← map_snd_calledOn, List.filter_map, Function.comp_def]
  rcases f.run_spec steps with all | ⟨ms, m, cause, before, -, broken⟩
  · refine ⟨_, [], ?_, .inl ⟨rfl, rfl⟩⟩
    rw [List.append_nil, ← frames, ← fitting]
    exact all.accepted
  · rw [fitting] at before
    obtain ⟨l, within, split⟩ := List.prefix_map_iff.mp before
    obtain ⟨sent, last, rfl, rfl, one⟩ := List.map_eq_append_iff.mp split.symm
    obtain ⟨x, rfl, rfl⟩ := List.map_eq_singleton_iff.mp one
    obtain ⟨taken, part, accepted⟩ := broken.accepted
    refine ⟨sent, taken, ?_, .inr ⟨x, within, part⟩⟩
    rw [← frames]
    exact accepted

/-- Whatever happens, from nothing known on, on any trees and with any output: what goes out is the frames of messages
that are called for, in order and at most a part of one more. Each of these is about style sheets, with what is read
there on the tree of its event, and all names that are spoken of or remembered are names of style sheets. -/
theorem only_style_sheets_told (root : Root) (limit : Nat) (writes : List Outlet.Answer)
    (flushes : List (Option IoFault)) (steps : List (Tree × Event)) :
    let f := start root limit ⟨writes, flushes, [], 0⟩
    let called := (f.calledOn steps).filter (Fits limit ·.2)
    let final := (f.run steps).2
    (∃ (sent : List (Tree × Message)) (r : Bytes),
      final.outlet.accepted = sent.flatMap (·.2.frame) ++ r ∧
      ((sent = called ∧ r = []) ∨ ∃ x, sent ++ [x] <+: called ∧ r <+: x.2.frame)) ∧
    (∀ x ∈ f.calledOn steps, root.Permits x.1 x.2 ∧ ∀ n, x.2.Mentions n → root.IsName n ∧ IsLogical n) ∧
    ∀ n ∈ final.known, root.IsName n ∧ IsLogical n := by
  intro f called final
  have decent : f.Decent := fun n hn => absurd hn Names.not_mem_empty
  obtain ⟨same, decent', permitted⟩ := decent.run steps
  refine ⟨f.accepted_of_run steps, ?_, ?_⟩
  · intro x hx
    apply And.intro (permitted x hx)
    intro n mentioned
    have named := (permitted x hx).isName mentioned
    exact ⟨named, named.isLogical⟩
  · intro n hn
    have named : (f.run steps).2.root.IsName n := decent' n hn
    rw [same] at named
    exact ⟨named, named.isLogical⟩

end Feed
end StyleFeed
