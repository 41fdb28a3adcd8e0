import StyleFeed.Proofs.Replies

/-!
What becomes of a departure that waits. `Ledger.call_spec` says what one call does to it, by what the call is
and by how long and behind which others the departure waits.
-/

namespace StyleFeed

namespace Ledger

/-- The departures that wait are numbered in the order in which they wait. -/
structure Numbered (l : Ledger) : Prop where
  ascending : l.held.Pairwise (·.number < ·.number)
  old : ∀ d ∈ l.held, d.number < l.next

theorem numbered_start (grace : Duration) : (start grace).Numbered :=
  ⟨.nil, fun _ h => nomatch h⟩

theorem Numbered.nodup {l : Ledger} (h : l.Numbered) : l.held.Nodup :=
  h.ascending.imp fun ascends same => absurd (same ▸ ascends) (Nat.lt_irrefl _)

theorem Numbered.nodup_numbers {l : Ledger} (h : l.Numbered) : (l.held.map (·.number)).Nodup :=
  List.pairwise_map.mpr (h.ascending.imp Nat.ne_of_lt)

theorem Numbered.eq_of_number {l : Ledger} (h : l.Numbered) {d e : Departure} (hd : d ∈ l.held)
    (he : e ∈ l.held) (same : d.number = e.number) : d = e :=
  List.inj_on_of_nodup_map h.nodup_numbers hd he same

theorem mem_number {next : Nat} {hs : List Held} {d : Departure} :
    d ∈ number next hs ↔ next ≤ d.number ∧ hs[d.number - next]? = some d.held := by
  obtain ⟨n, h⟩ := d
  induction hs generalizing next with
  | nil => simp [number]
  | cons first rest ih =>
    rw [number, List.mem_cons, ih, Departure.mk.injEq]
    rcases Nat.lt_trichotomy n next with early | rfl | late
    · simp only [show n ≠ next by omega, show ¬ next + 1 ≤ n by omega, show ¬ next ≤ n by omega, false_and,
        or_self]
    · simp only [Nat.sub_self, List.getElem?_cons_zero, Option.some.injEq, show ¬ n + 1 ≤ n by omega,
        false_and, or_false, Nat.le_refl, true_and]
      exact eq_comm
    · obtain ⟨k, rfl⟩ : ∃ k, n = next + 1 + k := ⟨n - (next + 1), by omega⟩
      rw [show next + 1 + k - next = k + 1 by omega, show next + 1 + k - (next + 1) = k by omega,
        List.getElem?_cons_succ]
      simp only [show next + 1 + k ≠ next by omega, show next + 1 ≤ next + 1 + k by omega,
        show next ≤ next + 1 + k by omega, false_and, false_or, true_and]

theorem number_append (next : Nat) (early late : List Held) :
    number next (early ++ late) = number next early ++ number (next + early.length) late := by
  induction early generalizing next with
  | nil => rfl
  | cons h rest ih =>
    rw [List.cons_append, number, ih, number, List.cons_append, List.length_cons, Nat.add_assoc,
      Nat.add_comm 1]

theorem pairwise_number (next : Nat) (hs : List Held) : (number next hs).Pairwise (·.number < ·.number) := by
  induction hs generalizing next with
  | nil => exact .nil
  | cons h rest ih =>
    refine List.pairwise_cons.mpr ⟨fun d hd => ?_, ih (next + 1)⟩
    exact (mem_number.mp hd).1

/-- What is left after these departures, whatever happens besides: nothing else comes to wait. -/
structure Frame (l : Ledger) (departed : List Held) (l' : Ledger) : Prop where
  grace : l'.grace = l.grace
  next : l'.next = l.next + departed.length
  held : l'.held.Sublist (l.held ++ number l.next departed)

theorem Frame.refl (l : Ledger) : Frame l [] l :=
  ⟨rfl, rfl, List.sublist_append_left ..⟩

theorem Frame.trans {k l m : Ledger} {early late : List Held} (first : Frame k early l)
    (second : Frame l late m) : Frame k (early ++ late) m where
  grace := second.grace.trans first.grace
  next := by
    rw [second.next, first.next, List.length_append]
    omega
  held := by
    rw [number_append, ← List.append_assoc, ← first.next]
    exact second.held.trans (first.held.append_right _)

theorem Frame.mem {l l' : Ledger} {departed : List Held} (frame : Frame l departed l') {d : Departure}
    (hd : d ∈ l'.held) :
    d ∈ l.held ∨ l.next ≤ d.number ∧ departed[d.number - l.next]? = some d.held := by
  rw [← mem_number, ← List.mem_append]
  exact frame.held.subset hd

theorem Frame.numbered {l l' : Ledger} {departed : List Held} (frame : Frame l departed l') (h : l.Numbered) :
    l'.Numbered where
  ascending := by
    refine List.Pairwise.sublist frame.held ?_
    refine List.pairwise_append.mpr ⟨h.ascending, pairwise_number .., fun d hd e he => ?_⟩
    exact Nat.lt_of_lt_of_le (h.old d hd) (mem_number.mp he).1
  old d hd := by
    have next := frame.next
    rcases frame.mem hd with hd | ⟨new, held⟩
    · have := h.old d hd
      omega
    · have := (List.getElem?_eq_some_iff.mp held).1
      omega

theorem frame_call (l : Ledger) (c : Call) : Frame l c.departs (l.call c).2 := by
  obtain ⟨held, grace⟩ := l.held_reply (number l.next c.departs) c
  exact ⟨grace, rfl, held⟩

/-- The numbers of the departures that a call reports. -/
theorem numbers_call (l : Ledger) (c : Call) : (l.call c).1.filterMap (·.departure) =
    ((l.reply (number l.next c.departs) c).1.filterMap (·.departure)).map (·.number) := by
  rw [List.map_filterMap, call, List.filterMap_map]
  rfl

/-- What is said of a departure is said of one that waits, and says that its path is gone. -/
theorem report_call {l : Ledger} {c : Call} {r : Report Nat} {n : Nat} (h : r ∈ (l.call c).1)
    (hn : r.departure = some n) :
    ∃ d ∈ l.held, d.number = n ∧ r.event.Gone d.held.path := by
  obtain ⟨r, reported, rfl⟩ := List.mem_map.mp h
  obtain ⟨d, about, rfl⟩ := Option.map_eq_some_iff.mp hn
  have held := (l.departures_reply _ c).mem (List.mem_filterMap.mpr ⟨r, reported, about⟩)
  exact ⟨d, held, rfl, Pairing.gone_of_reply reported about⟩

/-- A departure that waits is reported under its number. -/
theorem reported_iff {l : Ledger} (h : l.Numbered) {d : Departure} (hd : d ∈ l.held) (c : Call) :
    (∃ r ∈ (l.call c).1, r.departure = some d.number) ↔
      d ∈ (l.reply (number l.next c.departs) c).1.filterMap (·.departure) := by
  rw [← List.mem_filterMap, numbers_call, List.mem_map]
  constructor
  · rintro ⟨e, reported, same⟩
    have held := (l.departures_reply _ c).mem reported
    rwa [← h.eq_of_number held hd same]
  · intro reported
    exact ⟨d, reported, rfl⟩

/-- The departures under the same tracker that wait ahead of this one. -/
def ahead (l : Ledger) (d : Departure) : List Departure :=
  (l.held.takeWhile (· ≠ d)).filter (Departed.under d.held.tracker)

/-- The call reports the departure: as gone, because it has waited for the grace time, or as moved, because
more paths arrive under its tracker than departures wait ahead of it. -/
def Releases (l : Ledger) (d : Departure) : Call → Prop
  | .expire now => l.grace ≤ Clock.elapsed d.held.since now
  | .signal _ s _ => s.lossy = false ∧ s.kind = .rename .arrived ∧ s.tracker = d.held.tracker ∧
      (l.ahead d).length < s.paths.length

/-- The call reports a move from the same path that was not reported yet, with both its sides. -/
def Drops (l : Ledger) (d : Departure) : Call → Prop
  | .expire _ => False
  | .signal _ s _ => s.lossy = false ∧ s.kind = .rename .both ∧ ∃ src dest, s.paths = [src, dest] ∧
      d.held.path.same src ∧ ¬ l.settled.any (Settled.covers src dest s.tracker)

theorem takeWhile_ne {before after : List Departure} {d : Departure}
    (distinct : (before ++ d :: after).Nodup) : (before ++ d :: after).takeWhile (· ≠ d) = before := by
  have unlike : ∀ x ∈ before, decide (x ≠ d) = true := by
    intro x hx
    rw [decide_eq_true_eq]
    rintro rfl
    exact (List.nodup_append.mp distinct).2.2 x hx x List.mem_cons_self rfl
  rw [List.takeWhile_append_of_pos unlike]
  simp

theorem under_iff {tracker : Option Nat} {d : Departure} :
    Departed.under tracker d ↔ d.held.tracker = tracker := beq_iff_eq

section
variable {l : Ledger} (h : l.Numbered) {d : Departure} (hd : d ∈ l.held)
include h hd

omit h in
/-- An expiry reports what has waited for the grace time. -/
theorem lapse_spec (now : Instant) :
    (d ∈ (l.lapse now).1.filterMap (·.departure) ↔ l.grace ≤ Clock.elapsed d.held.since now) ∧
      (d ∈ (l.lapse now).2.held ↔ ¬ l.grace ≤ Clock.elapsed d.held.since now) := by
  have due : l.Due now d ↔ l.grace ≤ Clock.elapsed d.held.since now := Iff.rfl
  rw [Pairing.departures_lapse]
  simp [Pairing.lapse, hd, due]

/-- What a call does to a departure that waits. -/
theorem call_spec (c : Call) :
    ((∃ r ∈ (l.call c).1, r.departure = some d.number) ↔ l.Releases d c) ∧
      (d ∈ (l.call c).2.held ↔ ¬ l.Releases d c ∧ ¬ l.Drops d c) := by
  rw [reported_iff h hd]
  cases c with
  | expire now =>
    simp only [Releases, Drops, not_false_eq_true, and_true]
    exact lapse_spec hd now
  | signal t s now =>
    change (d ∈ (l.answer t s _).1.filterMap (·.departure) ↔ _) ∧ (d ∈ (l.answer t s _).2.held ↔ _)
    cases Pairing.meaning Departure t s with
    | departs clean kind answer =>
      rw [answer]
      simp [Releases, Drops, kind, Pairing.depart, hd]
    | arrives clean kind answer =>
      have undropped : ¬ l.Drops d (.signal t s now) := by
        rintro ⟨-, side, -⟩
        simp [kind] at side
      rw [answer]
      by_cases same : s.tracker = d.held.tracker
      · obtain ⟨before, after, split⟩ := List.append_of_mem hd
        have ahead : l.ahead d = before.filter (Departed.under s.tracker) := by
          rw [ahead, split, takeWhile_ne (split ▸ h.nodup), same]
        have releases : l.Releases d (.signal t s now) ↔
            (before.filter (Departed.under s.tracker)).length < s.paths.length := by
          rw [← ahead]
          exact ⟨fun releases => releases.2.2.2, fun fewer => ⟨clean, kind, same, fewer⟩⟩
        obtain ⟨reports, waits⟩ := Pairing.mem_arriveAll_iff h.nodup split (under_iff.mpr same.symm) s.paths
        rw [releases, waits, Nat.not_lt]
        exact ⟨reports, fun late => ⟨late, undropped⟩, And.left⟩
      · have unreleased : ¬ l.Releases d (.signal t s now) := fun releases => same releases.2.2.1
        have other : ¬ Departed.under s.tracker d := mt under_iff.mp (Ne.symm same)
        obtain ⟨unreported, waits⟩ := Pairing.mem_arriveAll_of_ne hd other s.paths
        exact ⟨iff_of_false unreported unreleased, iff_of_true waits ⟨unreleased, undropped⟩⟩
    | both src dest clean kind paths answer =>
      have unreleased : ¬ l.Releases d (.signal t s now) := by
        rintro ⟨-, side, -⟩
        simp [kind] at side
      rw [answer, Pairing.both]
      split
      · rename_i settled
        have undropped : ¬ l.Drops d (.signal t s now) := by
          rintro ⟨-, -, src', dest', paths', -, unsettled⟩
          obtain ⟨rfl, rfl⟩ : src = src' ∧ dest = dest' := by simpa [paths] using paths'
          exact unsettled settled
        simp [unreleased, undropped, hd]
      · rename_i unsettled
        have drops : l.Drops d (.signal t s now) ↔ d.held.path.same src := by
          constructor
          · rintro ⟨-, -, src', dest', paths', same, -⟩
            obtain ⟨rfl, rfl⟩ : src = src' ∧ dest = dest' := by simpa [paths] using paths'
            exact same
          · intro same
            exact ⟨clean, kind, src, dest, paths, same, unsettled⟩
        have path : Departed.path d = d.held.path := rfl
        simp [unreleased, drops, hd, Report.ofChange, path]
    | aside departed arrived both reports about answer =>
      have unreleased : ¬ l.Releases d (.signal t s now) := by
        rintro ⟨clean, kind, -⟩
        exact arrived ⟨clean, kind⟩
      have undropped : ¬ l.Drops d (.signal t s now) := by
        rintro ⟨clean, kind, src, dest, paths, -⟩
        exact both src dest ⟨clean, kind, paths⟩
      rw [answer, List.filterMap_eq_nil_iff.mpr about]
      simp [unreleased, undropped, hd]

end

end Ledger
end StyleFeed
