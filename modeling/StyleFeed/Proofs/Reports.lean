import Mathlib.Data.List.Induction
import StyleFeed.Proofs.Departures

/-!
What is reported of departures over whole runs: each at most once, and the path that departed as gone
(`Ledger.nodup_run`, `Ledger.report_run`). A departure that is held outlives the return of its path, so that it
can be reported after it: `Ledger.gone_after_coming_iff` says exactly when.
-/

namespace StyleFeed

/-- The call says that the path came into being. -/
def Call.Brings (path : Path) : Call → Prop
  | .signal _ s _ =>
    match s.kind, s.paths with
    | .create, paths | .rename .arrived, paths => ∃ p ∈ paths, p.same path
    | .rename .both, [_, dest] => dest.same path
    | _, _ => False
  | .expire _ => False

/-- The number of a departure does not change. -/
theorem getElem?_departures_append {before : List Call} {n : Nat} {h : Held}
    (held : (departures before)[n]? = some h) (later : List Call) :
    (departures (before ++ later))[n]? = some h := by
  have bound := (List.getElem?_eq_some_iff.mp held).1
  rw [departures_append, List.getElem?_append_left bound]
  exact held

theorem Event.Gone.of_same {p q : Path} {e : Event} (gone : e.Gone p) (same : p.same q) : e.Gone q := by
  rw [Path.same_iff] at same
  unfold Event.Gone at gone ⊢
  split at gone
  · exact Path.same_iff.mpr ((Path.same_iff.mp gone).trans same)
  · exact Path.same_iff.mpr ((Path.same_iff.mp gone).trans same)
  · exact gone.elim

namespace Ledger

theorem run_append (l : Ledger) (before later : List Call) :
    l.run (before ++ later) =
      ((l.run before).1 ++ ((l.run before).2.run later).1, ((l.run before).2.run later).2) := by
  induction before generalizing l with
  | nil => rfl
  | cons c rest ih => simp only [List.cons_append, run, ih, List.append_assoc]

/-- What is reported over some calls. -/
def reports (grace : Duration) (calls : List Call) : List (Report Nat) := ((start grace).run calls).1

def after (grace : Duration) (calls : List Call) : Ledger := ((start grace).run calls).2

theorem reports_append (grace : Duration) (before later : List Call) :
    reports grace (before ++ later) = reports grace before ++ ((after grace before).run later).1 := by
  rw [reports, run_append]
  rfl

theorem after_append (grace : Duration) (before later : List Call) :
    after grace (before ++ later) = ((after grace before).run later).2 := by
  rw [after, run_append]
  rfl

theorem after_concat (grace : Duration) (calls : List Call) (c : Call) :
    after grace (calls ++ [c]) = ((after grace calls).call c).2 := after_append grace calls [c]

theorem mem_reports_of_call {grace : Duration} {before : List Call} {c : Call} {r : Report Nat}
    (h : r ∈ ((after grace before).call c).1) (later : List Call) : r ∈ reports grace (before ++ c :: later) := by
  rw [reports_append]
  exact List.mem_append_right _ (List.mem_append_left _ h)

theorem mem_reports_append {grace : Duration} {before : List Call} {r : Report Nat} (h : r ∈ reports grace before)
    (later : List Call) : r ∈ reports grace (before ++ later) := by
  rw [reports_append]
  exact List.mem_append_left _ h

/-- The reports are what the pairing delivers. -/
theorem forget_after (grace : Duration) (calls : List Call) :
    ((Pairing.start grace).run calls).1 = (reports grace calls).map Report.event ∧
      ((Pairing.start grace).run calls).2 = (after grace calls).forget :=
  forget_run (start grace) calls

theorem frame_run (l : Ledger) (calls : List Call) : Frame l (departures calls) (l.run calls).2 := by
  induction calls generalizing l with
  | nil => exact .refl l
  | cons c rest ih => exact (frame_call l c).trans (ih _)

theorem frame_after (grace : Duration) (calls : List Call) :
    Frame (start grace) (departures calls) (after grace calls) := frame_run (start grace) calls

theorem numbered_after (grace : Duration) (calls : List Call) : (after grace calls).Numbered :=
  (frame_after grace calls).numbered (numbered_start grace)

theorem next_after (grace : Duration) (calls : List Call) :
    (after grace calls).next = (departures calls).length := by
  rw [(frame_after grace calls).next]
  exact Nat.zero_add _

/-- A departure that waits is the one of its number. -/
theorem held_after {grace : Duration} {calls : List Call} {d : Departure}
    (hd : d ∈ (after grace calls).held) : (departures calls)[d.number]? = some d.held := by
  rcases (frame_after grace calls).mem hd with hd | ⟨-, held⟩
  · cases hd
  · exact held

/-! ## At most one report -/

/-- What a call reports of a departure is the last of it. -/
theorem not_waiting_of_report {l : Ledger} (h : l.Numbered) {c : Call} {r : Report Nat} {n : Nat}
    (hr : r ∈ (l.call c).1) (hn : r.departure = some n) :
    n < l.next ∧ ∀ d ∈ (l.call c).2.held, d.number ≠ n := by
  obtain ⟨d, hd, rfl, -⟩ := report_call hr hn
  refine ⟨h.old d hd, fun e he same => ?_⟩
  have released := (call_spec h hd c).1.mp ⟨r, hr, hn⟩
  rcases (frame_call l c).mem he with before | ⟨new, -⟩
  · rw [h.eq_of_number before hd same] at he
    exact ((call_spec h hd c).2.mp he).1 released
  · have old := h.old d hd
    omega

theorem unreported_run {l : Ledger} (h : l.Numbered) {n : Nat} (old : n < l.next)
    (gone : ∀ d ∈ l.held, d.number ≠ n) (calls : List Call) :
    ∀ r ∈ (l.run calls).1, r.departure ≠ some n := by
  induction calls generalizing l with
  | nil => intro r hr; cases hr
  | cons c rest ih =>
    intro r hr hn
    rcases List.mem_append.mp hr with hr | hr
    · obtain ⟨d, hd, number, -⟩ := report_call hr hn
      exact gone d hd number
    · have frame := frame_call l c
      refine ih (frame.numbered h) ?_ ?_ r hr hn
      · have := frame.next
        omega
      · intro d hd number
        rcases frame.mem hd with hd | ⟨new, -⟩
        · exact gone d hd number
        · omega

theorem nodup_call {l : Ledger} (h : l.Numbered) (c : Call) :
    ((l.call c).1.filterMap (·.departure)).Nodup := by
  rw [numbers_call]
  exact h.nodup_numbers.sublist ((l.departures_reply _ c).map _)

/-- No departure is reported twice. -/
theorem nodup_run {l : Ledger} (h : l.Numbered) (calls : List Call) :
    ((l.run calls).1.filterMap (·.departure)).Nodup := by
  induction calls generalizing l with
  | nil => exact List.nodup_nil
  | cons c rest ih =>
    have frame := frame_call l c
    simp only [run, List.filterMap_append]
    refine List.nodup_append.mpr ⟨nodup_call h c, ih (frame.numbered h), ?_⟩
    rintro n early m late rfl
    obtain ⟨r, hr, hn⟩ := List.mem_filterMap.mp early
    obtain ⟨r', hr', hn'⟩ := List.mem_filterMap.mp late
    obtain ⟨old, gone⟩ := not_waiting_of_report h hr hn
    refine unreported_run (frame.numbered h) ?_ gone rest r' hr' hn'
    have := frame.next
    omega

theorem filter_about {rs : List (Report Nat)} (distinct : (rs.filterMap (·.departure)).Nodup) {r : Report Nat}
    {n : Nat} (hr : r ∈ rs) (hn : r.departure = some n) : rs.filter (Report.about n) = [r] := by
  induction rs with
  | nil => cases hr
  | cons first rest ih =>
    by_cases same : first.departure = some n
    · rw [List.filterMap_cons_some same] at distinct
      have new := (List.nodup_cons.mp distinct).1
      have others : rest.filter (Report.about n) = [] := by
        refine List.filter_eq_nil_iff.mpr fun x hx again => new ?_
        exact List.mem_filterMap.mpr ⟨x, hx, Report.about_iff.mp again⟩
      rw [List.filter_cons_of_pos (Report.about_iff.mpr same), others]
      rcases List.mem_cons.mp hr with rfl | hr
      · rfl
      · exact (new (List.mem_filterMap.mpr ⟨r, hr, hn⟩)).elim
    · have rest_distinct : (rest.filterMap (·.departure)).Nodup :=
        distinct.sublist ((List.sublist_cons_self ..).filterMap _)
      rw [List.filter_cons_of_neg (mt Report.about_iff.mp same)]
      rcases List.mem_cons.mp hr with rfl | hr
      · exact (same hn).elim
      · exact ih rest_distinct hr

/-- What is reported of a departure is all that is reported of it. -/
theorem reports_about {grace : Duration} {calls : List Call} {r : Report Nat} {n : Nat}
    (hr : r ∈ reports grace calls) (hn : r.departure = some n) :
    (reports grace calls).filter (Report.about n) = [r] :=
  filter_about (nodup_run (numbered_start grace) calls) hr hn

/-- What is reported of a departure says that its path is gone. -/
theorem report_run {grace : Duration} {calls : List Call} {r : Report Nat} {n : Nat}
    (hr : r ∈ reports grace calls) (hn : r.departure = some n) :
    ∃ h, (departures calls)[n]? = some h ∧ r.event.Gone h.path := by
  induction calls using List.reverseRecOn with
  | nil => cases hr
  | append_singleton calls c ih =>
    rw [reports_append] at hr
    rcases List.mem_append.mp hr with hr | hr
    · obtain ⟨h, held, gone⟩ := ih hr
      exact ⟨h, getElem?_departures_append held [c], gone⟩
    · have last : ((after grace calls).run [c]).1 = ((after grace calls).call c).1 := List.append_nil _
      rw [last] at hr
      obtain ⟨d, hd, rfl, gone⟩ := report_call hr hn
      exact ⟨d.held, getElem?_departures_append (held_after hd) [c], gone⟩

/-! ## Paths that come back -/

/-- One of the calls releases the departure, and none before drops it. -/
def Yields (l : Ledger) (d : Departure) : List Call → Prop
  | [] => False
  | c :: rest => l.Releases d c ∨ ¬ l.Drops d c ∧ (l.call c).2.Yields d rest

theorem report_run_iff {l : Ledger} (h : l.Numbered) {d : Departure} (hd : d ∈ l.held)
    (calls : List Call) : (∃ r ∈ (l.run calls).1, r.departure = some d.number) ↔ l.Yields d calls := by
  induction calls generalizing l with
  | nil => simp [run, Yields]
  | cons c rest ih =>
    obtain ⟨reports, waits⟩ := call_spec h hd c
    have frame := frame_call l c
    have either : (∃ r ∈ (l.run (c :: rest)).1, r.departure = some d.number) ↔
        (∃ r ∈ (l.call c).1, r.departure = some d.number) ∨
          ∃ r ∈ ((l.call c).2.run rest).1, r.departure = some d.number := by
      simp only [run, List.mem_append, or_and_right, exists_or]
    rw [either, reports, Yields]
    by_cases released : l.Releases d c
    · exact iff_of_true (.inl released) (.inl released)
    by_cases dropped : l.Drops d c
    · have lost : d ∉ (l.call c).2.held := fun hd => (waits.mp hd).2 dropped
      have unreported := unreported_run (frame.numbered h) (n := d.number) ?_ ?_ rest
      · simp only [released, dropped, not_true_eq_false, false_and, or_false, false_or, iff_false]
        rintro ⟨r, hr, hn⟩
        exact unreported r hr hn
      · have := frame.next
        have := h.old d hd
        omega
      · intro e he same
        have := h.old d hd
        rcases frame.mem he with before | ⟨new, -⟩
        · rw [h.eq_of_number before hd same] at he
          exact lost he
        · omega
    · rw [ih (frame.numbered h) (waits.mpr ⟨released, dropped⟩)]
      simp only [released, dropped, not_false_eq_true, true_and, false_or]

/-- The signal is about the departure: with its other side, or with both its sides. -/
def Answers (l : Ledger) (d : Departure) : Call → Prop
  | .signal t s now => l.Releases d (.signal t s now) ∨ l.Drops d (.signal t s now)
  | .expire _ => False

/-- After its path came back a departure is delivered as gone all the same, unless the signal that says so is
about it, if it still waits then and is released later on. -/
theorem gone_after_coming_iff {grace : Duration} {before later : List Call} {c : Call} {path : Path} {n : Nat}
    {h : Held} (departed : (departures before)[n]? = some h) (same : h.path.same path)
    (brings : c.Brings path) :
    (((Pairing.start grace).run (before ++ [c])).2.run later).1 =
        ((after grace (before ++ [c])).run later).1.map Report.event ∧
      ((∃ r ∈ ((after grace (before ++ [c])).run later).1, r.departure = some n ∧ r.event.Gone path) ↔
        ∃ d ∈ (after grace before).held, d.number = n ∧ ¬ (after grace before).Answers d c ∧
          (after grace (before ++ [c])).Yields d later) := by
  have numbered := numbered_after grace before
  have numbered' := numbered_after grace (before ++ [c])
  have old : n < (after grace before).next := by
    rw [next_after]
    exact (List.getElem?_eq_some_iff.mp departed).1
  have old' : n < (after grace (before ++ [c])).next := by
    rw [next_after, departures_append, List.length_append, ← next_after grace before]
    omega
  have settles {d : Departure} (hd : d ∈ (after grace before).held) :
      d ∈ (after grace (before ++ [c])).held ↔ ¬ (after grace before).Answers d c := by
    rw [after_concat, (call_spec numbered hd c).2]
    cases c with
    | expire now => exact brings.elim
    | signal t s now => exact not_or.symm
  refine ⟨?_, ?_, ?_⟩
  · rw [(forget_after grace (before ++ [c])).2]
    exact (forget_run _ later).1
  · rintro ⟨r, hr, hn, -⟩
    by_contra none
    refine unreported_run numbered' old' ?_ later r hr hn
    intro d hd number
    have waited : d ∈ (after grace before).held := by
      rcases (frame_call (after grace before) c).mem (after_concat grace before c ▸ hd) with waited | ⟨new, -⟩
      · exact waited
      · omega
    subst number
    exact none ⟨d, waited, rfl, (settles waited).mp hd, (report_run_iff numbered' hd later).mp ⟨r, hr, hn⟩⟩
  · rintro ⟨d, hd, rfl, unanswered, yields⟩
    have hd' := (settles hd).mpr unanswered
    obtain ⟨r, hr, hn⟩ := (report_run_iff numbered' hd' later).mpr yields
    refine ⟨r, hr, hn, ?_⟩
    have whole : r ∈ reports grace ((before ++ [c]) ++ later) := by
      rw [reports_append]
      exact List.mem_append_right _ hr
    obtain ⟨h', departed', gone⟩ := report_run whole hn
    have held := getElem?_departures_append (getElem?_departures_append departed [c]) later
    rw [held] at departed'
    cases departed'
    exact gone.of_same same

/-! A path departs at 0 and is created again at 10; nothing else is said of it, and the grace time is 50. -/
namespace Recreation

def path : Path := .ofString "a"

def departure : Call := .signal (.empty []) ⟨.rename .departed, [path], some 7, false⟩ 0

def creation : Call := .signal (.empty []) ⟨.create, [path], none, false⟩ 10

theorem departed : (departures [departure])[0]? = some ⟨path, some 7, 0⟩ := rfl

theorem brings : creation.Brings path := ⟨path, by simp, by decide⟩

theorem gone_after_creation : (departures [departure])[0]? = some ⟨path, some 7, 0⟩ ∧ path.same path ∧
    creation.Brings path ∧
    ∃ r ∈ ((after 50 ([departure] ++ [creation])).run [.expire 50]).1, r.departure = some 0 ∧
      r.event.Gone path := by
  have same : path.same path := by decide
  refine ⟨departed, same, brings, (gone_after_coming_iff departed same brings).2.mpr ?_⟩
  refine ⟨⟨0, path, some 7, 0⟩, by decide, rfl, ?_, .inl ?_⟩
  · simp [Answers, creation, Releases, Drops]
  · show 50 ≤ Clock.elapsed 0 50
    decide

/-- The path is there, and the last that is delivered says that it is not. -/
theorem created_then_deleted : (departures [departure])[0]? = some ⟨path, some 7, 0⟩ ∧ creation.Brings path ∧
    ((Pairing.start 50).run [departure, creation, .expire 50]).1 =
        [.change (.created path), .change (.deleted path)] ∧
      reports 50 [departure, creation, .expire 50] =
        [⟨.change (.created path), none⟩, ⟨.change (.deleted path), some 0⟩] :=
  ⟨departed, brings, by decide, by decide⟩

end Recreation

end Ledger
end StyleFeed
