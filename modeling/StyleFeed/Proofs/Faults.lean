import StyleFeed.Proofs.Grounds
import StyleFeed.Proofs.Sending

/-!
No event and no tree can stop the feed, only an output that fails: `Feed.fails_only_by_output`. The cause of a fault
is an answer of the stream to a call (`Outlet.MayFail`), and such an answer is used up once (`Outlet.mayFail_of_left`).
-/

namespace StyleFeed

open Message (Fits)

namespace Outlet

/-- One of the answers that are left ends a message with this cause. An interrupted call to write is made again, an
interrupted call to flush is not. -/
inductive MayFail (o : Outlet) : IoFault → Prop
  | write {cause : IoFault} (answer : .fails cause ∈ o.writes) (final : cause.kind ≠ .interrupted) : MayFail o cause
  | full (answer : .takes 0 ∈ o.writes) : MayFail o .tookNothing
  | flush {cause : IoFault} (answer : some cause ∈ o.flushes) : MayFail o cause

theorem mayFail_of_left {o o' : Outlet} (writes : o'.writes <:+ o.writes) (flushes : o'.flushes <:+ o.flushes)
    {cause : IoFault} (h : o'.MayFail cause) : o.MayFail cause := by
  cases h with
  | write answer final => exact .write (writes.mem answer) final
  | full answer => exact .full (writes.mem answer)
  | flush answer => exact .flush (flushes.mem answer)

theorem writeAll_left (buffer accepted : Bytes) (answers : List Answer) :
    (writeAll buffer accepted answers).2.1 <:+ answers := by
  fun_induction writeAll buffer accepted answers with
  | case1 => exact List.suffix_rfl
  | case2 | case3 | case4 | case7 => exact List.suffix_cons ..
  | case5 _ _ _ _ _ _ ih => exact ih.trans (List.suffix_cons ..)
  | case6 _ _ _ _ _ ih => exact ih.trans (List.suffix_cons ..)

theorem writeAll_fault {buffer accepted : Bytes} {answers : List Answer} {cause : IoFault}
    (h : (writeAll buffer accepted answers).1 = .error cause) :
    (.fails cause ∈ answers ∧ cause.kind ≠ .interrupted) ∨ (.takes 0 ∈ answers ∧ cause = .tookNothing) := by
  fun_induction writeAll buffer accepted answers with
  | case1 | case2 | case4 => cases h
  | case3 =>
    cases h
    exact .inr ⟨List.mem_cons_self, rfl⟩
  | case5 _ _ _ _ _ _ ih =>
    exact (ih h).imp (And.imp_left (List.mem_cons_of_mem _)) (And.imp_left (List.mem_cons_of_mem _))
  | case6 _ _ _ _ _ ih =>
    exact (ih h).imp (And.imp_left (List.mem_cons_of_mem _)) (And.imp_left (List.mem_cons_of_mem _))
  | case7 _ _ _ _ final =>
    cases h
    exact .inl ⟨List.mem_cons_self, final⟩

theorem flush_left (o : Outlet) : (flush o).2.writes = o.writes ∧ (flush o).2.flushes <:+ o.flushes := by
  unfold flush
  split
  · rename_i first
    rw [first]
    exact ⟨rfl, List.suffix_cons ..⟩
  · exact ⟨rfl, List.tail_suffix _⟩

theorem flush_fault {o : Outlet} {cause : IoFault} (h : (flush o).1 = .error cause) : some cause ∈ o.flushes := by
  unfold flush at h
  split at h
  · rename_i first
    cases h
    rw [first]
    exact List.mem_cons_self
  · cases h

/-- Sending only uses answers up. -/
theorem send_left (limit : Nat) (m : Message) (o : Outlet) :
    (send limit m o).2.writes <:+ o.writes ∧ (send limit m o).2.flushes <:+ o.flushes := by
  have writes := writeAll_left m.frame o.accepted o.writes
  rw [send_eq_payload]
  split
  · exact ⟨List.suffix_rfl, List.suffix_rfl⟩
  split
  · exact ⟨List.suffix_rfl, List.suffix_rfl⟩
  split
  · rename_i failed
    rw [failed] at writes
    exact ⟨writes, List.suffix_rfl⟩
  · rename_i left accepted taken
    rw [taken] at writes
    have flushed := flush_left { o with writes := left, accepted }
    split <;> rename_i same <;> rw [same] at flushed
    · exact ⟨flushed.1 ▸ writes, flushed.2⟩
    · exact ⟨flushed.1 ▸ writes, flushed.2⟩

/-- A fault of the stream is one of its answers. -/
theorem mayFail_of_send {limit : Nat} {m : Message} {o : Outlet} {cause : IoFault}
    (h : (send limit m o).1 = .error (.io cause)) : o.MayFail cause := by
  rw [send_eq_payload] at h
  split at h
  · cases h
  split at h
  · cases h
  split at h
  · rename_i failed
    cases h
    rcases writeAll_fault (congrArg Prod.fst failed) with ⟨answer, final⟩ | ⟨answer, rfl⟩
    · exact .write answer final
    · exact .full answer
  · split at h
    · rename_i failed
      cases h
      have answer := flush_fault (congrArg Prod.fst failed)
      exact .flush answer
    · cases h

end Outlet

namespace Feed

theorem mayFail_of_send {f : Feed} {ms : List Message} {cause : IoFault}
    (h : (f.send ms).1 = .error (.io cause)) : f.outlet.MayFail cause := by
  induction ms generalizing f with
  | nil => cases h
  | cons m ms ih =>
    obtain ⟨writes, flushes⟩ := Outlet.send_left f.limit m f.outlet
    rw [send] at h
    split at h
    · rename_i sent
      rw [sent] at writes flushes
      exact Outlet.mayFail_of_left writes flushes (ih h)
    · rename_i failed
      rw [failed] at writes flushes
      split at h
      · exact Outlet.mayFail_of_left writes flushes (ih h)
      · exact Outlet.mayFail_of_send ((congrArg Prod.fst failed).trans h)

/-- What becomes of the messages of an event: all that fit are sent, or those before one on whose way the output
failed. Nothing follows that one, and nothing of it is remembered. -/
inductive Outcome (f : Feed) (ms : List Message) : Except Fault Unit × Feed → Prop
  | sent {g : Feed} (all : f.Sent (ms.filter (Fits f.limit ·)) g) : Outcome f ms (.ok (), g)
  | failed {sent rest : List Message} {m : Message} {cause : IoFault} {g : Feed}
      (order : ms.filter (Fits f.limit ·) = sent ++ m :: rest) (fault : f.outlet.MayFail cause)
      (broken : f.Broken sent m g) : Outcome f ms (.error (.io cause), g)

theorem outcome_of_send (f : Feed) (ms : List Message) : f.Outcome ms (f.send ms) := by
  rcases f.send_spec ms with ⟨g, h, all⟩ | ⟨sent, m, cause, g, before, h, broken⟩
  · rw [h]
    exact .sent all
  · obtain ⟨rest, order⟩ := before
    have fault : f.outlet.MayFail cause := mayFail_of_send (congrArg Prod.fst h)
    rw [h]
    exact .failed (by rw [← order, List.append_assoc]; rfl) fault broken

/-- Whatever is remembered, whatever the tree and whatever its paths, a change calls for messages, and so does a scan.
An event ends in a fault only where the output fails; what was sent before is remembered, and nothing follows. -/
theorem fails_only_by_output (f : Feed) (t : Tree) :
    (∀ c, ∃ ms, f.messagesAbout t c = .ok ms) ∧
    (∀ e, ∃ ms, f.messages t e = .ok ms ∧ f.Outcome ms (f.handle t e)) ∧
    ∃ ms, f.messagesAfterScan t = .ok ms ∧ f.Outcome ms (f.resync t) := by
  have handled (e : Event) : ∃ ms, f.messages t e = .ok ms ∧ f.Outcome ms (f.handle t e) := by
    obtain ⟨ms, called, -⟩ := f.exists_messages t e
    refine ⟨ms, called, ?_⟩
    rw [handle, called]
    exact f.outcome_of_send ms
  refine ⟨?_, handled, handled .rescan⟩
  intro c
  obtain ⟨ms, called, -⟩ := f.exists_messagesAbout t c
  exact ⟨ms, called⟩

end Feed
end StyleFeed
