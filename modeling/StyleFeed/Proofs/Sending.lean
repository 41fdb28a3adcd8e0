import StyleFeed.Feed
import StyleFeed.Proofs.Framing
import StyleFeed.Proofs.Remembering
import StyleFeed.Proofs.Sizes

/-!
What goes out and what is remembered:

* `Outlet.send_cases`: a message is refused for its size, goes out as one frame, or breaks off inside it;
* `Feed.Sent`, `Feed.Broken`: what a feed has put out since it was another one, whole or up to a fault;
* `Feed.send_spec`, `Feed.run_spec`: sending and running end in one of the two;
* `Feed.output_agrees_with_names`: over a whole run the output is the frames of some messages, and the names
  are those that these messages leave.
-/

namespace StyleFeed

namespace Message

/-- The bytes that go out for a message. -/
def frame (m : Message) : Bytes := Frame.encode m.payload

/-- The message may go out under the limit. -/
def Fits (limit : Nat) (m : Message) : Prop :=
  m.payload.length ≤ limit ∧ m.payload.length ≤ Outlet.headerLimit

instance (limit : Nat) : DecidablePred (Fits limit) := fun _ => inferInstanceAs (Decidable (_ ∧ _))

/-- A reader at the other end gets the messages back. -/
theorem readAll_frames {limit : Nat} {ms : List Message} (fits : ∀ m ∈ ms, m.Fits limit) :
    Frame.readAll [.data (ms.flatMap frame)] = (ms.map payload, none) := by
  apply Frame.readAll_frames
  · intro fault hf
    cases List.mem_singleton.mp hf
  · intro p hp
    obtain ⟨m, hm, rfl⟩ := List.mem_map.mp hp
    exact Nat.lt_succ_of_le (fits m hm).2
  · rw [Source.bytes, Source.bytes, List.append_nil, List.flatMap_map]
    rfl

/-- A file that fits when it is reported as modified fits when it is reported as created. -/
theorem fits_created {limit : Nat} {name content : String} (h : Fits limit (modified name content)) :
    Fits limit (created name content) :=
  ⟨Nat.le_trans (length_created_le name content) h.1, Nat.le_trans (length_created_le name content) h.2⟩

theorem fits_deleted {limit : Nat} {name content : String} (h : Fits limit (modified name content)) :
    Fits limit (deleted name) := by
  have created := fits_created h
  exact ⟨Nat.le_trans (length_deleted_le name content) created.1,
    Nat.le_trans (length_deleted_le name content) created.2⟩

end Message

open Message (Fits)

namespace Outlet

theorem writeAll_cases (buffer accepted : Bytes) (answers : List Answer) :
    (∃ rest, writeAll buffer accepted answers = (.ok (), rest, accepted ++ buffer)) ∨
      ∃ fault rest taken, taken <+: buffer ∧
        writeAll buffer accepted answers = (.error fault, rest, accepted ++ taken) := by
  induction answers generalizing buffer accepted with
  | nil => exact .inl ⟨[], rfl⟩
  | cons answer answers ih =>
    cases answer with
    | takesAll => exact .inl ⟨answers, rfl⟩
    | takes n =>
      rw [writeAll]
      split
      · exact .inr ⟨_, _, [], List.nil_prefix, by rw [List.append_nil]⟩
      split
      · exact .inl ⟨_, rfl⟩
      · rcases ih (buffer.drop n) (accepted ++ buffer.take n) with ⟨rest, h⟩ | ⟨fault, rest, taken, hp, h⟩
        · exact .inl ⟨rest, by rw [h, List.append_assoc, List.take_append_drop]⟩
        · refine .inr ⟨fault, rest, buffer.take n ++ taken, ?_, by rw [h, List.append_assoc]⟩
          obtain ⟨more, hm⟩ := hp
          exact ⟨more, by rw [List.append_assoc, hm, List.take_append_drop]⟩
    | fails fault =>
      rw [writeAll]
      split
      · exact ih buffer accepted
      · exact .inr ⟨_, _, [], List.nil_prefix, by rw [List.append_nil]⟩

theorem flush_accepted (o : Outlet) : (flush o).2.accepted = o.accepted := by
  unfold flush
  split <;> rfl

/-- Sending goes by the length of the payload, which is what was counted. -/
theorem send_eq_payload (limit : Nat) (m : Message) (o : Outlet) :
    send limit m o =
      if limit < m.payload.length then (.error (.tooLarge m.payload.length limit), o)
      else if headerLimit < m.payload.length then (.error (.tooLarge m.payload.length headerLimit), o)
      else
        match writeAll m.frame o.accepted o.writes with
        | (.error fault, writes, accepted) => (.error (.io fault), { o with writes, accepted })
        | (.ok (), writes, accepted) =>
          match flush { o with writes, accepted } with
          | (.error fault, o) => (.error (.io fault), o)
          | (.ok (), o) => (.ok (), o) := by
  rw [m.length_payload]
  rfl

/-- All that sending can come to. A flush that fails leaves the whole frame with the stream. -/
theorem send_cases (limit : Nat) (m : Message) (o : Outlet) :
    (¬ m.Fits limit ∧ ∃ bound, send limit m o = (.error (.tooLarge m.payload.length bound), o)) ∨
    (m.Fits limit ∧ ∃ o', send limit m o = (.ok (), o') ∧ o'.accepted = o.accepted ++ m.frame) ∨
    (m.Fits limit ∧ ∃ cause o' taken, send limit m o = (.error (.io cause), o') ∧
      taken <+: m.frame ∧ o'.accepted = o.accepted ++ taken) := by
  rw [send_eq_payload]
  by_cases overLimit : limit < m.payload.length
  · refine .inl ⟨fun h => Nat.not_le_of_lt overLimit h.1, limit, ?_⟩
    simp only [overLimit, if_true]
  by_cases overHeader : headerLimit < m.payload.length
  · refine .inl ⟨fun h => Nat.not_le_of_lt overHeader h.2, headerLimit, ?_⟩
    simp only [overLimit, overHeader, if_true, if_false]
  have fits : m.Fits limit := ⟨Nat.not_lt.mp overLimit, Nat.not_lt.mp overHeader⟩
  refine .inr ?_
  simp only [overLimit, overHeader, if_false, fits, true_and]
  rcases writeAll_cases m.frame o.accepted o.writes with ⟨rest, h⟩ | ⟨fault, rest, taken, hp, h⟩
  · rw [h]
    have same := flush_accepted { o with writes := rest, accepted := o.accepted ++ m.frame }
    simp only at same ⊢
    split <;> rename_i hf <;> rw [hf] at same
    · exact .inr ⟨_, _, m.frame, rfl, List.prefix_rfl, same⟩
    · exact .inl ⟨_, rfl, same⟩
  · rw [h]
    exact .inr ⟨_, _, taken, rfl, hp, rfl⟩

/-- Every call is going to succeed. -/
structure Willing (o : Outlet) : Prop where
  writes : o.writes = []
  flushes : o.flushes = []

theorem send_willing {o : Outlet} (h : o.Willing) (limit : Nat) (m : Message) :
    (∀ cause, (send limit m o).1 ≠ .error (.io cause)) ∧ (send limit m o).2.Willing := by
  rw [send_eq_payload]
  simp only [h.writes, writeAll, flush, h.flushes]
  split
  · exact ⟨fun _ => nofun, h⟩
  split
  · exact ⟨fun _ => nofun, h⟩
  · exact ⟨fun _ => nofun, rfl, rfl⟩

/-- No call fails, save those to write that are interrupted and made again. -/
structure Faultless (o : Outlet) : Prop where
  writes : ∀ a ∈ o.writes, a ≠ .takes 0 ∧ ∀ fault, a = .fails fault → fault.kind = .interrupted
  flushes : ∀ x ∈ o.flushes, x = none

theorem Willing.faultless {o : Outlet} (h : o.Willing) : o.Faultless where
  writes := by simp [h.writes]
  flushes := by simp [h.flushes]

theorem writeAll_faultless {buffer accepted : Bytes} {answers : List Answer}
    (h : ∀ a ∈ answers, a ≠ .takes 0 ∧ ∀ fault, a = .fails fault → fault.kind = .interrupted) :
    (writeAll buffer accepted answers).1 = .ok () ∧
      ∀ a ∈ (writeAll buffer accepted answers).2.1, a ∈ answers := by
  fun_induction writeAll buffer accepted answers with
  | case1 => exact ⟨rfl, nofun⟩
  | case2 => exact ⟨rfl, fun a ha => List.mem_cons_of_mem _ ha⟩
  | case3 => exact absurd rfl (h (.takes 0) List.mem_cons_self).1
  | case4 => exact ⟨rfl, fun a ha => List.mem_cons_of_mem _ ha⟩
  | case5 buffer accepted answers n some short ih =>
    obtain ⟨ok, rest⟩ := ih fun a ha => h a (List.mem_cons_of_mem _ ha)
    exact ⟨ok, fun a ha => List.mem_cons_of_mem _ (rest a ha)⟩
  | case6 buffer accepted fault answers again ih =>
    obtain ⟨ok, rest⟩ := ih fun a ha => h a (List.mem_cons_of_mem _ ha)
    exact ⟨ok, fun a ha => List.mem_cons_of_mem _ (rest a ha)⟩
  | case7 buffer accepted fault answers final =>
    exact absurd ((h _ List.mem_cons_self).2 fault rfl) final

theorem flush_faultless {o : Outlet} (h : o.Faultless) : (flush o).1 = .ok () ∧ (flush o).2.Faultless := by
  obtain ⟨writes, flushes⟩ := h
  unfold flush
  split
  · rename_i fault rest some
    have := flushes (.some fault) (by simp [some])
    cases this
  · exact ⟨rfl, writes, fun x hx => flushes x (List.mem_of_mem_tail hx)⟩

theorem send_faultless {o : Outlet} (h : o.Faultless) (limit : Nat) (m : Message) :
    (∀ cause, (send limit m o).1 ≠ .error (.io cause)) ∧ (send limit m o).2.Faultless := by
  obtain ⟨written, rest⟩ := @writeAll_faultless m.frame o.accepted o.writes h.writes
  rw [send_eq_payload]
  split
  · exact ⟨fun _ => nofun, h⟩
  split
  · exact ⟨fun _ => nofun, h⟩
  split
  · rename_i failed
    rw [failed] at written
    cases written
  · rename_i writes accepted taken
    rw [taken] at rest
    have still : Faultless { o with writes, accepted } := ⟨fun a ha => h.writes a (rest a ha), h.flushes⟩
    obtain ⟨flushed, last⟩ := flush_faultless still
    split
    · rename_i failed
      rw [failed] at flushed
      cases flushed
    · rename_i done
      rw [done] at last
      exact ⟨fun _ => nofun, last⟩

end Outlet

namespace Feed

/-- From `f` to `g` the messages went out, one frame each, and nothing else. -/
structure Sent (f : Feed) (ms : List Message) (g : Feed) : Prop where
  root : g.root = f.root
  limit : g.limit = f.limit
  fits : ∀ m ∈ ms, m.Fits f.limit
  accepted : g.outlet.accepted = f.outlet.accepted ++ ms.flatMap Message.frame
  known : g.known = ms.foldl Names.record f.known

/-- From `f` to `g` the messages went out, and then the output failed while one more was on its way. -/
structure Broken (f : Feed) (ms : List Message) (m : Message) (g : Feed) : Prop where
  fits : ∀ x ∈ ms ++ [m], x.Fits f.limit
  accepted : ∃ taken, taken <+: m.frame ∧
    g.outlet.accepted = f.outlet.accepted ++ ms.flatMap Message.frame ++ taken
  known : g.known = ms.foldl Names.record f.known

namespace Sent

theorem refl (f : Feed) : f.Sent [] f :=
  ⟨rfl, rfl, fun _ h => absurd h List.not_mem_nil, (List.append_nil _).symm, rfl⟩

theorem trans {f g h : Feed} {ms ns : List Message} (first : f.Sent ms g) (second : g.Sent ns h) :
    f.Sent (ms ++ ns) h where
  root := second.root.trans first.root
  limit := second.limit.trans first.limit
  fits := by
    intro m hm
    rcases List.mem_append.mp hm with hm | hm
    · exact first.fits m hm
    · exact first.limit ▸ second.fits m hm
  accepted := by rw [second.accepted, first.accepted, List.flatMap_append, List.append_assoc]
  known := by rw [second.known, first.known, List.foldl_append]

theorem broken {f g h : Feed} {ms ns : List Message} {m : Message} (first : f.Sent ms g)
    (second : g.Broken ns m h) : f.Broken (ms ++ ns) m h where
  fits := by
    intro x hx
    rw [List.append_assoc] at hx
    rcases List.mem_append.mp hx with hx | hx
    · exact first.fits x hx
    · exact first.limit ▸ second.fits x hx
  accepted := by
    obtain ⟨taken, hp, h⟩ := second.accepted
    exact ⟨taken, hp, by simp [h, first.accepted]⟩
  known := by rw [second.known, first.known, List.foldl_append]

end Sent

/-- The messages that fit go out in order, either all of them or up to a fault of the stream. -/
theorem send_spec (f : Feed) (ms : List Message) :
    (∃ g, f.send ms = (.ok (), g) ∧ f.Sent (ms.filter (Fits f.limit ·)) g) ∨
      ∃ sent m cause g, sent ++ [m] <+: ms.filter (Fits f.limit ·) ∧
        f.send ms = (.error (.io cause), g) ∧ f.Broken sent m g := by
  induction ms generalizing f with
  | nil => exact .inl ⟨f, rfl, .refl f⟩
  | cons m ms ih =>
    rcases Outlet.send_cases f.limit m f.outlet with
      ⟨tooLong, bound, h⟩ | ⟨fits, outlet, h, accepted⟩ | ⟨fits, cause, outlet, taken, h, hp, accepted⟩
    · have dropped : f.send (m :: ms) = f.send ms := by
        rw [send, h]
        rfl
      rw [dropped, List.filter_cons_of_neg (by simpa using tooLong)]
      exact ih f
    · let g : Feed := { f with outlet, known := f.known.record m }
      have sent : f.send (m :: ms) = g.send ms := by rw [send, h]
      have first : f.Sent [m] g := ⟨rfl, rfl, by simpa using fits, by simpa using accepted, rfl⟩
      rw [sent, List.filter_cons_of_pos (by simpa using fits)]
      rcases ih g with ⟨last, h, rest⟩ | ⟨sent, n, cause, last, before, h, rest⟩
      · exact .inl ⟨last, h, first.trans rest⟩
      · refine .inr ⟨m :: sent, n, cause, last, ?_, h, first.broken rest⟩
        exact List.cons_prefix_cons.mpr ⟨rfl, before⟩
    · refine .inr ⟨[], m, cause, { f with outlet }, ?_, ?_, ?_, ⟨taken, hp, by simpa using accepted⟩, rfl⟩
      · rw [List.filter_cons_of_pos (by simpa using fits)]
        exact List.cons_prefix_cons.mpr ⟨rfl, List.nil_prefix⟩
      · rw [send, h]
        rfl
      · simpa using fits

theorem send_root (f : Feed) (ms : List Message) : (f.send ms).2.root = f.root := by
  induction ms generalizing f with
  | nil => rfl
  | cons m ms ih =>
    rw [send]
    split
    · exact ih _
    split
    · exact ih _
    · rfl

/-- As long as the outlet stays one on which sending has no fault, all the messages that fit are sent. -/
theorem send_of_kept {P : Outlet → Prop}
    (kept : ∀ o, P o → ∀ limit m,
      (∀ cause, (Outlet.send limit m o).1 ≠ .error (.io cause)) ∧ P (Outlet.send limit m o).2)
    {f : Feed} (h : P f.outlet) (ms : List Message) :
    ∃ g, f.send ms = (.ok (), g) ∧ f.Sent (ms.filter (Fits f.limit ·)) g ∧ P g.outlet := by
  have unbroken (f : Feed) (h : P f.outlet) :
      (∀ cause, (f.send ms).1 ≠ .error (.io cause)) ∧ P (f.send ms).2.outlet := by
    induction ms generalizing f with
    | nil => exact ⟨fun _ => nofun, h⟩
    | cons m ms ih =>
      obtain ⟨noFault, still⟩ := kept f.outlet h f.limit m
      rw [send]
      split
      · rename_i outlet sent
        rw [sent] at still
        exact ih _ still
      · rename_i fault outlet sent
        rw [sent] at noFault still
        split
        · exact ih _ still
        · exact ⟨fun cause same => noFault cause same, still⟩
  obtain ⟨noFault, still⟩ := unbroken f h
  rcases f.send_spec ms with ⟨g, sent, all⟩ | ⟨_, _, cause, _, _, failed, _⟩
  · rw [sent] at still
    exact ⟨g, sent, all, still⟩
  · exact absurd (congrArg Prod.fst failed) (noFault cause)

/-- To an outlet that takes everything, all the messages that fit are sent. -/
theorem send_of_willing {f : Feed} (h : f.outlet.Willing) (ms : List Message) :
    ∃ g, f.send ms = (.ok (), g) ∧ f.Sent (ms.filter (Fits f.limit ·)) g ∧ g.outlet.Willing :=
  send_of_kept (fun _ h => Outlet.send_willing h) h ms

/-- To an outlet without faults, all the messages of an event that fit are sent. -/
theorem handle_of_faultless {f : Feed} (h : f.outlet.Faultless) {t : Tree} {e : Event} {ms : List Message}
    (called : f.messages t e = .ok ms) :
    ∃ g, f.handle t e = (.ok (), g) ∧ f.Sent (ms.filter (Fits f.limit ·)) g ∧ g.outlet.Faultless := by
  rw [handle, called]
  exact send_of_kept (fun _ h => Outlet.send_faultless h) h ms

/-- When everything fits and nothing fails, all that was called for is sent. -/
theorem sent_of_handled {f g : Feed} {t : Tree} {e : Event} {ms : List Message}
    (called : f.messages t e = .ok ms) (fits : ∀ m ∈ ms, Fits f.limit m)
    (handled : f.handle t e = (.ok (), g)) : f.Sent ms g := by
  have all : ms.filter (Fits f.limit ·) = ms := List.filter_eq_self.mpr fun m hm => decide_eq_true (fits m hm)
  rw [handle, called] at handled
  rcases f.send_spec ms with ⟨g', sent, whole⟩ | ⟨_, _, _, _, _, failed, _⟩
  · obtain ⟨-, rfl⟩ := Prod.mk.inj (sent.symm.trans handled)
    rwa [all] at whole
  · cases failed.symm.trans handled

/-! ## Runs -/

/-- All the messages that the events of a run call for, up to the event that ends it. -/
def calledFor (f : Feed) : List (Tree × Event) → List Message
  | [] => []
  | (t, e) :: rest =>
    match f.messages t e with
    | .error _ => []
    | .ok ms =>
      match f.send ms with
      | (.ok (), f) => ms ++ f.calledFor rest
      | (.error _, _) => ms

theorem run_spec (f : Feed) (steps : List (Tree × Event)) :
    f.Sent ((f.calledFor steps).filter (Fits f.limit ·)) (f.run steps).2 ∨
      ∃ sent m cause, sent ++ [m] <+: (f.calledFor steps).filter (Fits f.limit ·) ∧
        (f.run steps).1 = .error (.io cause) ∧ f.Broken sent m (f.run steps).2 := by
  induction steps generalizing f with
  | nil => exact .inl (.refl f)
  | cons step rest ih =>
    obtain ⟨t, e⟩ := step
    rw [run, handle, calledFor]
    cases f.messages t e with
    | error fault => exact .inl (.refl f)
    | ok ms =>
      rcases f.send_spec ms with ⟨g, h, first⟩ | ⟨sent, m, cause, g, before, h, broken⟩
      · simp only [h, List.filter_append]
        have limit := first.limit
        rcases ih g with later | ⟨sent, m, cause, before, h, later⟩
        · exact .inl (first.trans (limit ▸ later))
        · refine .inr ⟨_, m, cause, ?_, h, first.broken later⟩
          rw [List.append_assoc, ← limit]
          exact List.prefix_append_right_inj _ |>.mpr before
      · simp only [h]
        exact .inr ⟨sent, m, cause, before, rfl, broken⟩

/-- The first event of a run in which every message fits, to an outlet without faults. -/
theorem run_cons_of_fitting {f : Feed} (h : f.outlet.Faultless) {t : Tree} {e : Event} {ms : List Message}
    {rest : List (Tree × Event)} (called : f.messages t e = .ok ms)
    (fits : ∀ m ∈ f.calledFor ((t, e) :: rest), Fits f.limit m) :
    ∃ g, f.run ((t, e) :: rest) = g.run rest ∧ f.Sent ms g ∧ g.outlet.Faultless ∧
      ∀ m ∈ g.calledFor rest, Fits g.limit m := by
  obtain ⟨g, handled, sent, faultless⟩ := handle_of_faultless h called
  have all : f.calledFor ((t, e) :: rest) = ms ++ g.calledFor rest := by
    rw [handle, called] at handled
    rw [calledFor, called]
    simp only [handled]
  rw [all] at fits
  have first : ms.filter (Fits f.limit ·) = ms :=
    List.filter_eq_self.mpr fun m hm => decide_eq_true (fits m (List.mem_append_left _ hm))
  refine ⟨g, by rw [run, handled], first ▸ sent, faultless, fun m hm => ?_⟩
  rw [sent.limit]
  exact fits m (List.mem_append_right _ hm)

/-- Whatever the stream does and however the tree changes, what went out is the frames of some of the
messages that were called for: of all that fit, or of the first of them and a part of one more frame when
the stream failed. They are read back as they are, and the names are the ones that they leave: those that one of them
brings and none after it takes. -/
theorem output_agrees_with_names (root : Root) (limit : Nat) (writes : List Outlet.Answer)
    (flushes : List (Option IoFault)) (t : Tree) (steps : List (Tree × Event)) :
    let f := start root limit ⟨writes, flushes, [], 0⟩
    let called := (f.calledFor ((t, .rescan) :: steps)).filter (Fits limit ·)
    let result := (f.run ((t, .rescan) :: steps)).1
    let final := (f.run ((t, .rescan) :: steps)).2
    ∃ (ms : List Message) (r : Bytes),
      final.outlet.accepted = ms.flatMap Message.frame ++ r ∧
      (∀ m ∈ ms, m.payload.length ≤ limit) ∧
      ((ms = called ∧ r = []) ∨
        ∃ m cause, ms ++ [m] <+: called ∧ result = .error (.io cause) ∧ r <+: m.frame) ∧
      (Frame.readAll [.data (ms.flatMap Message.frame)]).2 = none ∧
      (Frame.readAll [.data (ms.flatMap Message.frame)]).1.map Message.parse = ms.map .ok ∧
      final.known = ms.foldl Names.record .empty ∧ ∀ n, n ∈ final.known ↔ Message.Leave ms n := by
  intro f called result final
  have left {ms : List Message} (known : final.known = ms.foldl Names.record .empty) (n : String) :
      n ∈ final.known ↔ Message.Leave ms n := by
    rw [known, Names.mem_foldl_record]
    simp
  have readBack {ms : List Message} (fits : ∀ m ∈ ms, m.Fits limit) :
      (Frame.readAll [.data (ms.flatMap Message.frame)]).2 = none ∧
      (Frame.readAll [.data (ms.flatMap Message.frame)]).1.map Message.parse = ms.map .ok := by
    rw [Message.readAll_frames fits]
    simp [Function.comp_def]
  rcases f.run_spec ((t, .rescan) :: steps) with sent | ⟨ms, m, cause, before, h, broken⟩
  · obtain ⟨clean, same⟩ := readBack sent.fits
    refine ⟨called, [], ?_, fun m hm => (sent.fits m hm).1, .inl ⟨rfl, rfl⟩, clean, same, sent.known, left sent.known⟩
    rw [List.append_nil]
    exact sent.accepted
  · have fits : ∀ x ∈ ms, x.Fits limit := fun x hx => broken.fits x (List.mem_append_left _ hx)
    obtain ⟨clean, same⟩ := readBack fits
    obtain ⟨taken, hp, accepted⟩ := broken.accepted
    exact ⟨ms, taken, accepted, fun x hx => (fits x hx).1, .inr ⟨m, cause, before, h, hp⟩, clean, same,
      broken.known, left broken.known⟩

end Feed
end StyleFeed
