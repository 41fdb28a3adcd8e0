import StyleFeed.Proofs.Reports
import StyleFeed.Proofs.Turns

/-!
Expiry and the deadline that is announced for it, over runs at times that do not go back: `Pairing.expires_when_due`.

* `Pairing.HeldBy.expire_ne_nil_iff`: something expires just if there is a deadline and it has come;
* `Ledger.mem_waiting_after_iff`: a departure waits until a signal is about it or it expires, so that the first expiry
  that comes late enough reports it.
-/

namespace StyleFeed

namespace Pairing

variable {p : Pairing} {now : Instant}

theorem deadline?_le_iff : (∃ due ∈ p.deadline?, due ≤ now) ↔ ∃ h ∈ p.held, h.since + p.grace ≤ now := by
  constructor
  · rintro ⟨due, first, le⟩
    obtain ⟨h, mem, rfl⟩ := List.mem_map.mp (List.min?_mem first)
    exact ⟨h, mem, le⟩
  · rintro ⟨h, mem, le⟩
    have mem : h.since + p.grace ∈ p.held.map (·.since + p.grace) := List.mem_map_of_mem mem
    obtain ⟨due, first⟩ := Option.isSome_iff_exists.mp (List.isSome_min?_of_mem mem)
    exact ⟨due, first, Nat.le_trans ((List.min?_eq_some_iff.mp first).2 _ mem) le⟩

namespace HeldBy

variable (held : p.HeldBy now)
include held

theorem expire_ne_nil_iff : (p.expire now).1 ≠ [] ↔ ∃ due ∈ p.deadline?, due ≤ now := by
  rw [deadline?_le_iff, expire_eq_filter, ne_eq, List.map_eq_nil_iff, List.filter_eq_nil_iff]
  simp only [decide_eq_true_eq, not_forall, not_not, exists_prop]
  apply exists_congr
  intro h
  exact and_congr_right fun mem => held.due_iff mem

theorem lt_deadline?_expire {due : Instant} (first : due ∈ (p.expire now).2.deadline?) : now < due := by
  obtain ⟨h, mem, rfl⟩ := List.mem_map.mp (List.min?_mem first)
  obtain ⟨mem, waits⟩ := List.mem_filter.mp mem
  have early : ¬ p.Due now h := of_decide_eq_true waits
  rw [held.due_iff mem] at early
  exact Nat.lt_of_not_le early

/-- The loop wakes up at that deadline at the latest. -/
theorem deadline?_delivery {d : Delivery} (same : d.pairing = p) (noRescan : d.nextRescan = none)
    (shows : Clock.Shows (now + p.grace)) : d.deadline? = .ok p.deadline? := by
  rw [Delivery.deadline?, same, Delivery.mapM_timeAfter held shows, noRescan]
  simp [deadline?]

end HeldBy

/-- What is held after some calls departed with one of them. -/
theorem heldBy_run {grace : Duration} {calls : List Call} (past : ∀ c ∈ calls, c.time ≤ now) :
    ((start grace).run calls).2.HeldBy now := by
  intro h mem
  obtain ⟨c, made, departs⟩ := List.mem_flatMap.mp ((held_sublist grace calls).subset mem)
  rw [Call.since_of_mem_departs departs]
  exact past c made

end Pairing

namespace Ledger

variable {l : Ledger} {d : Departure}

/-- One of the signals is about the departure. -/
def Answered (l : Ledger) (d : Departure) : List Call → Prop
  | [] => False
  | c :: rest => l.Answers d c ∨ (l.call c).2.Answered d rest

/-- What departs with a call waits after it. -/
theorem mem_call_of_departs {c : Call} (departs : d ∈ number l.next c.departs) : d ∈ (l.call c).2.held := by
  cases c with
  | expire now => cases departs
  | signal t s now =>
    have departed : s.lossy = false ∧ s.kind = .rename .departed := by
      by_contra stays
      rw [Call.departs, if_neg stays] at departs
      cases departs
    change d ∈ (l.answer t s _).2.held
    rw [Pairing.answer_rename departed.1 departed.2]
    exact List.mem_append_right _ departs

/-- A call leaves a departure waiting, but for a signal that is about it and an expiry that comes late enough. -/
theorem mem_waiting_call_iff (h : l.Numbered) (hd : d ∈ l.held) {c : Call} (past : d.held.since ≤ c.time) :
    d ∈ (l.call c).2.held ↔ ¬ l.Answers d c ∧ ∀ t, c = .expire t → t < d.held.since + l.grace := by
  rw [(call_spec h hd c).2]
  cases c with
  | signal t s now => simp [Answers]
  | expire now =>
    have lapses : l.grace ≤ Clock.elapsed d.held.since now ↔ d.held.since + l.grace ≤ now :=
      Nat.le_sub_iff_add_le' past
    simp [Answers, Releases, Drops, lapses]

theorem mem_waiting_run_iff (h : l.Numbered) (hd : d ∈ l.held) {calls : List Call}
    (past : ∀ c ∈ calls, d.held.since ≤ c.time) :
    d ∈ (l.run calls).2.held ↔
      ¬ l.Answered d calls ∧ ∀ t, .expire t ∈ calls → t < d.held.since + l.grace := by
  induction calls generalizing l with
  | nil => simp [run, Answered, hd]
  | cons c rest ih =>
    obtain ⟨first, others⟩ := List.forall_mem_cons.mp past
    have frame := frame_call l c
    have numbered := frame.numbered h
    have step := mem_waiting_call_iff h hd first
    have last : (l.run (c :: rest)).2 = ((l.call c).2.run rest).2 := rfl
    rw [last, Answered, not_or]
    by_cases waits : d ∈ (l.call c).2.held
    · obtain ⟨unanswered, early⟩ := step.mp waits
      rw [ih numbered waits others, frame.grace]
      constructor
      · rintro ⟨none, later⟩
        refine ⟨⟨unanswered, none⟩, ?_⟩
        intro t mem
        rcases List.mem_cons.mp mem with same | mem
        · exact early t same.symm
        · exact later t mem
      · rintro ⟨⟨-, none⟩, later⟩
        exact ⟨none, fun t mem => later t (List.mem_cons_of_mem _ mem)⟩
    · -- once it waits no more it does not come back, as what departs later has another number
      have gone : d ∉ ((l.call c).2.run rest).2.held := by
        intro back
        rcases (frame_run (l.call c).2 rest).mem back with waits' | ⟨new, -⟩
        · exact waits waits'
        · have old := h.old d hd
          have next := frame.next
          omega
      refine iff_of_false gone ?_
      rintro ⟨⟨unanswered, -⟩, early⟩
      apply waits
      exact step.mpr ⟨unanswered, fun t same => early t (same ▸ List.mem_cons_self)⟩

/-- What departs over some calls departs with one of them. -/
theorem mem_number_departures {next : Nat} {calls : List Call} : d ∈ number next (departures calls) ↔
    ∃ early c later, calls = early ++ c :: later ∧ d ∈ number (next + (departures early).length) c.departs := by
  induction calls generalizing next with
  | nil => simp [departures, number]
  | cons c rest ih =>
    rw [departures, List.flatMap_cons, number_append, List.mem_append, ← departures, ih]
    constructor
    · rintro (first | ⟨early, c', later, rfl, mem⟩)
      · exact ⟨[], c, rest, rfl, first⟩
      · refine ⟨c :: early, c', later, rfl, ?_⟩
        rw [departures, List.flatMap_cons, List.length_append, ← Nat.add_assoc]
        exact mem
    · rintro ⟨early, c', later, split, mem⟩
      cases early with
      | nil =>
        cases split
        exact .inl mem
      | cons _ early =>
        cases split
        rw [departures, List.flatMap_cons, List.length_append, ← Nat.add_assoc] at mem
        exact .inr ⟨early, c', later, rfl, mem⟩

/-- What waits after some calls departed with one of them, and no call since then has ended that. -/
theorem mem_waiting_after_iff {grace : Duration} {calls : List Call}
    (ordered : (calls.map Call.time).Pairwise (· ≤ ·)) :
    d ∈ (after grace calls).held ↔ ∃ early c later, calls = early ++ c :: later ∧
      d ∈ number (departures early).length c.departs ∧ ¬ (after grace (early ++ [c])).Answered d later ∧
      ∀ t, .expire t ∈ later → t < d.held.since + grace := by
  have since {early later : List Call} {c : Call} (split : calls = early ++ c :: later)
      (departs : d ∈ number (departures early).length c.departs) :
      d ∈ (after grace calls).held ↔ ¬ (after grace (early ++ [c])).Answered d later ∧
        ∀ t, .expire t ∈ later → t < d.held.since + grace := by
    have waits : d ∈ (after grace (early ++ [c])).held := by
      rw [after_concat]
      apply mem_call_of_departs
      rw [next_after]
      exact departs
    have past : ∀ c' ∈ later, d.held.since ≤ c'.time := by
      have made := Call.since_of_mem_departs (List.mem_of_getElem? (mem_number.mp departs).2)
      rw [split, List.map_append, List.map_cons] at ordered
      intro c' mem
      rw [made]
      exact List.rel_of_pairwise_cons (List.pairwise_append.mp ordered).2.1 (List.mem_map_of_mem mem)
    rw [split, List.append_cons, after_append, mem_waiting_run_iff (numbered_after ..) waits past,
      (frame_after ..).grace]
    rfl
  constructor
  · intro waits
    have departed := mem_number.mpr ⟨Nat.zero_le d.number, held_after waits⟩
    obtain ⟨early, c, later, split, departs⟩ := mem_number_departures.mp departed
    rw [Nat.zero_add] at departs
    exact ⟨early, c, later, split, departs, (since split departs).mp waits⟩
  · rintro ⟨early, c, later, split, departs, lasts⟩
    exact (since split departs).mpr lasts

/-- The departures that expire, in the order in which they wait. -/
theorem call_expire_eq {now : Instant} (held : l.forget.HeldBy now) :
    (l.call (.expire now)).1 = (l.held.filter (·.held.since + l.grace ≤ now)).map fun d =>
      ⟨.change (.deleted d.held.path), some d.number⟩ := by
  have due : l.held.filter (l.Due now ·) = l.held.filter (·.held.since + l.grace ≤ now) :=
    List.filter_congr fun d mem => decide_eq_decide.mpr (held.due_iff (List.mem_map_of_mem mem))
  change (l.lapse now).1.map (Report.map Departure.number) = _
  rw [Pairing.lapse, due, List.map_map]
  rfl

theorem length_reports_about_le (grace : Duration) (calls : List Call) (n : Nat) :
    ((reports grace calls).filter (Report.about n)).length ≤ 1 := by
  cases about : (reports grace calls).filter (Report.about n) with
  | nil => exact Nat.zero_le 1
  | cons r rest =>
    have mem : r ∈ (reports grace calls).filter (Report.about n) := about ▸ List.mem_cons_self
    obtain ⟨reported, number⟩ := List.mem_filter.mp mem
    rw [← about, reports_about reported (Report.about_iff.mp number)]
    exact Nat.le_refl 1

/-- The departure came with one of the calls, and by now the grace time is over; of the calls since then none is a
signal about it, and none an expiry when the grace time was over. -/
def Lapses (grace : Duration) (calls : List Call) (now : Instant) (d : Departure) : Prop :=
  ∃ early c later, calls = early ++ c :: later ∧ d ∈ number (departures early).length c.departs ∧
    ¬ (after grace (early ++ [c])).Answered d later ∧ d.held.since + grace ≤ now ∧
    ∀ t, .expire t ∈ later → t < d.held.since + grace

end Ledger

namespace Pairing

/-- Expiry and the deadline agree after every run at times that do not go back. Something expires just if there is a
deadline and it has come, and what is left after that has its deadline ahead; while the clock can show such times, that
is the deadline at which the loop wakes up. A departure that no signal answers is reported as gone by the first expiry
that comes when the grace time is over or later, after those that departed before it; nothing is reported twice. -/
theorem expires_when_due {grace : Duration} {calls : List Call} {now : Instant} {p : Pairing}
    (reached : ((start grace).run calls).2 = p) (ordered : (calls.map Call.time ++ [now]).IsChain (· ≤ ·)) :
    ((p.expire now).1 ≠ [] ↔ ∃ due ∈ p.deadline?, due ≤ now) ∧
    (∀ due ∈ (p.expire now).2.deadline?, now < due) ∧
    (Clock.Shows (now + grace) → ∀ d : Delivery, d.pairing = p → d.nextRescan = none →
      d.deadline? = .ok p.deadline?) ∧
    (∃ lapsed : List Departure,
      (p.expire now).1 = lapsed.map (fun d => .change (.deleted d.held.path)) ∧
      Ledger.reports grace (calls ++ [.expire now]) = Ledger.reports grace calls ++
        lapsed.map (fun d => ⟨.change (.deleted d.held.path), some d.number⟩) ∧
      lapsed.Pairwise (·.number < ·.number) ∧ ∀ d, d ∈ lapsed ↔ Ledger.Lapses grace calls now d) ∧
    ((start grace).run (calls ++ [.expire now])).1 =
      (Ledger.reports grace (calls ++ [.expire now])).map Report.event ∧
    ∀ n, ((Ledger.reports grace (calls ++ [.expire now])).filter (Report.about n)).length ≤ 1 := by
  obtain ⟨made, -, past⟩ := List.pairwise_append.mp (List.isChain_iff_pairwise.mp ordered)
  have past : ∀ c ∈ calls, c.time ≤ now := fun c mem => past c.time (List.mem_map_of_mem mem) now (by simp)
  have held : p.HeldBy now := reached ▸ heldBy_run past
  -- the same with the departures numbered
  have forget : (Ledger.after grace calls).forget = p := (Ledger.forget_after grace calls).2 ▸ reached
  have same : (Ledger.after grace calls).grace = grace := (Ledger.frame_after grace calls).grace
  have expired := Ledger.call_expire_eq (forget ▸ held : (Ledger.after grace calls).forget.HeldBy now)
  rw [same] at expired
  refine ⟨held.expire_ne_nil_iff, fun due => held.lt_deadline?_expire, ?_, ?_, ?_, ?_⟩
  · intro shows d pairing noRescan
    apply held.deadline?_delivery pairing noRescan
    have grace_p : p.grace = grace := forget ▸ same
    rw [grace_p]
    exact shows
  · refine ⟨(Ledger.after grace calls).held.filter (·.held.since + grace ≤ now), ?_, ?_, ?_, ?_⟩
    · have delivered := (Ledger.forget_call (Ledger.after grace calls) (.expire now)).1
      rw [expired, List.map_map, forget] at delivered
      exact delivered
    · rw [Ledger.reports_append, ← expired]
      exact congrArg _ (List.append_nil _)
    · exact (Ledger.numbered_after grace calls).ascending.filter _
    · intro d
      rw [List.mem_filter, Ledger.mem_waiting_after_iff made, decide_eq_true_eq]
      constructor
      · rintro ⟨⟨early, c, later, split, departs, unanswered, lasts⟩, due⟩
        exact ⟨early, c, later, split, departs, unanswered, due, lasts⟩
      · rintro ⟨early, c, later, split, departs, unanswered, due, lasts⟩
        exact ⟨⟨early, c, later, split, departs, unanswered, lasts⟩, due⟩
  · exact (Ledger.forget_after grace _).1
  · exact Ledger.length_reports_about_le grace _

/-! Two paths depart at 0 and one of them arrives elsewhere at 10, when a third departs; the grace time is 50. -/
namespace AtTheDeadline

def calls : List Call :=
  [.signal (.empty []) ⟨.rename .departed, [lettered 1, lettered 2], some 7, false⟩ 0,
    .signal (.empty []) ⟨.rename .arrived, [lettered 3], some 7, false⟩ 10,
    .signal (.empty []) ⟨.rename .departed, [lettered 4], none, false⟩ 10, .expire 49]

def held : Pairing := ⟨50, [⟨lettered 2, some 7, 0⟩, ⟨lettered 4, none, 10⟩], [.paired (lettered 1) (lettered 3)]⟩

/-- What is held after the first signal when there is no grace time. -/
def heldFirst : Pairing := ⟨0, [⟨lettered 1, some 7, 0⟩, ⟨lettered 2, some 7, 0⟩], []⟩

theorem expires_in_time : ((start 50).run calls).2 = held ∧ (calls.map Call.time ++ [50]).IsChain (· ≤ ·) ∧
    held.deadline? = some 50 ∧ (held.expire 50).1 ≠ [] ∧ (held.expire 50).1 = [.change (.deleted (lettered 2))] ∧
    (∀ due ∈ (held.expire 50).2.deadline?, 50 < due) ∧ ((start 0).run (calls.take 1)).2 = heldFirst ∧
    heldFirst.deadline? = some 0 ∧ (heldFirst.expire 0).1 ≠ [] := by
  have reached : ((start 50).run calls).2 = held := by decide
  have ordered : (calls.map Call.time ++ [50]).IsChain (· ≤ ·) := by decide
  obtain ⟨due, ahead, -⟩ := expires_when_due reached ordered
  have reachedFirst : ((start 0).run (calls.take 1)).2 = heldFirst := by decide
  have orderedFirst : ((calls.take 1).map Call.time ++ [0]).IsChain (· ≤ ·) := by decide
  obtain ⟨dueFirst, -⟩ := expires_when_due reachedFirst orderedFirst
  exact ⟨reached, ordered, rfl, due.mpr ⟨50, rfl, Nat.le_refl 50⟩, by decide, ahead, reachedFirst, rfl,
    dueFirst.mpr ⟨0, rfl, Nat.le_refl 0⟩⟩

end AtTheDeadline

end Pairing
end StyleFeed
