import StyleFeed.Proofs.Interleaving

/-!
However the signals about renames come, each rename is reported once, as a move or, if it took the grace time,
as a deletion and a creation: `Renames.reported_once`. The signal about both its sides is what might report it
again; it finds the rename among those that are remembered, since fewer paths arrive than would displace it.
-/

namespace StyleFeed
namespace Renames

variable {ι : Type} {rs : Renames ι}

/-! ## What is remembered -/

variable (rs) in
/-- The rename is what was reported. -/
def covers (i : ι) : Settled → Bool := Settled.covers (rs.src i) (rs.dest i) (some (rs.tracker i))

theorem covers_unique {i j : ι} {s : Settled} (hi : rs.covers i s) (hj : rs.covers j s) : i = j := by
  unfold covers Settled.covers at hi hj
  cases s with
  | paired src dest =>
    simp only [Bool.and_eq_true, Path.same_iff] at hi hj
    refine rs.ends_distinct (Path.same_iff.mpr ?_) (Path.same_iff.mpr ?_)
    · exact hi.1.symm.trans hj.1
    · exact hi.2.symm.trans hj.2
  | arrived tracker dest =>
    simp only [Bool.and_eq_true, beq_iff_eq, Option.some.injEq] at hi hj
    exact rs.trackers_distinct (hi.1.trans hj.1.symm)

variable (rs) in
/-- That the rename was reported is remembered, for so many more reports at least. -/
def Remembers (i : ι) (room : Nat) (settled : List Settled) : Prop :=
  ∃ before s after, settled = before ++ s :: after ∧ rs.covers i s ∧ after.length + room < Pairing.memory

theorem Remembers.mono {i : ι} {room less : Nat} {settled : List Settled} (h : rs.Remembers i room settled)
    (le : less ≤ room) : rs.Remembers i less settled := by
  obtain ⟨before, s, after, rfl, covers, short⟩ := h
  exact ⟨before, s, after, rfl, covers, by omega⟩

section
variable {α : Type} {p : Pairing α} {i : ι} {room : Nat}

theorem remembers_remember {s : Settled} (covers : rs.covers i s) (short : room < Pairing.memory) (p : Pairing α) :
    rs.Remembers i room (p.remember s).settled := by
  refine ⟨_, s, [], rfl, covers, ?_⟩
  rw [List.length_nil]
  omega

/-- One more report is remembered; what is forgotten for it, if anything, is older. -/
theorem Remembers.remember (h : rs.Remembers i (1 + room) p.settled) (new : Settled) :
    rs.Remembers i room (p.remember new).settled := by
  obtain ⟨before, s, after, split, covers, short⟩ := h
  have extended : (after ++ [new]).length + room < Pairing.memory := by
    rw [List.length_append, List.length_singleton]
    omega
  rw [Pairing.remember, Pairing.push, split]
  split
  · rename_i full
    cases before with
    | nil =>
      rw [List.nil_append, List.length_cons] at full
      omega
    | cons oldest before =>
      refine ⟨before, s, after ++ [new], ?_, covers, extended⟩
      simp
  · refine ⟨before, s, after ++ [new], ?_, covers, extended⟩
    simp

variable [Departed α]

theorem Remembers.arrive (h : rs.Remembers i (1 + room) p.settled) (tracker : Option Nat) (dest : Path) :
    rs.Remembers i room (p.arrive tracker dest).2.settled := by
  unfold Pairing.arrive
  cases p.held.find? (Departed.under tracker) with
  | some a => exact Remembers.remember (p := { p with held := _ }) h _
  | none =>
    cases tracker with
    | some t => exact h.remember _
    | none => exact h.mono (by omega)

theorem Remembers.arriveAll {paths : List Path} (h : rs.Remembers i (paths.length + room) p.settled)
    (tracker : Option Nat) : rs.Remembers i room (Pairing.arriveAll tracker paths p).2.settled := by
  induction paths generalizing p with
  | nil => exact h.mono (by omega)
  | cons dest rest ih =>
    apply ih
    apply Remembers.arrive
    exact h.mono (by rw [List.length_cons]; omega)

end

/-- What another rename forgets is about itself. -/
theorem Remembers.erase {i j : ι} {room : Nat} {settled : List Settled} (h : rs.Remembers i room settled)
    (other : j ≠ i) : rs.Remembers i room (settled.eraseP (rs.covers j)) := by
  obtain ⟨before, s, after, rfl, covers, short⟩ := h
  have kept : ¬ rs.covers j s := fun covers' => other (covers_unique covers' covers)
  by_cases found : ∃ x ∈ before, rs.covers j x
  · obtain ⟨x, hx, covers'⟩ := found
    rw [List.eraseP_append_left covers' _ hx]
    exact ⟨_, s, after, rfl, covers, short⟩
  · have unmatched : ∀ x ∈ before, ¬ rs.covers j x := fun x hx covers' => found ⟨x, hx, covers'⟩
    rw [List.eraseP_append_right _ unmatched, List.eraseP_cons_of_neg kept]
    refine ⟨before, s, after.eraseP (rs.covers j), rfl, covers, ?_⟩
    have := (List.eraseP_sublist (p := rs.covers j) (l := after)).length_le
    omega

/-! ## What a step leaves -/

theorem no_rename_aside {s : Signal} (aside : s.lossy ∨ ∀ side, s.kind ≠ .rename side) {side : Signal.Side} :
    ¬ (s.lossy = false ∧ s.kind = .rename side) := by
  rintro ⟨clean, kind⟩
  rcases aside with lossy | other
  · rw [clean] at lossy
    cases lossy
  · exact other side kind

theorem settled_call_aside {s : Signal} (aside : s.lossy ∨ ∀ side, s.kind ≠ .rename side) (l : Ledger) (t : Tree)
    (now : Instant) : (l.call (.signal t s now)).2.settled = l.settled := by
  change (l.answer t s _).2.settled = _
  cases Pairing.meaning Departure t s with
  | departs clean kind => exact (no_rename_aside aside ⟨clean, kind⟩).elim
  | arrives clean kind => exact (no_rename_aside aside ⟨clean, kind⟩).elim
  | both _ _ clean kind => exact (no_rename_aside aside ⟨clean, kind⟩).elim
  | aside _ _ _ _ _ answer => rw [answer]

variable (rs) in
/-- The departures that wait under the tracker of the rename. -/
def outstanding (l : Ledger) (i : ι) : List Departure :=
  l.held.filter (Departed.under (some (rs.tracker i)))

theorem mem_outstanding {l : Ledger} {i : ι} {d : Departure} :
    d ∈ rs.outstanding l i ↔ d ∈ l.held ∧ d.held.tracker = some (rs.tracker i) := by
  rw [outstanding, List.mem_filter, Ledger.under_iff]

theorem find?_under (l : Ledger) (i : ι) :
    l.held.find? (Departed.under (some (rs.tracker i))) = (rs.outstanding l i).head? :=
  List.head?_filter.symm

/-- The arrival finds the departure that waits. -/
theorem arrive_of_waiting {l : Ledger} {i : ι} {d : Departure} (h : rs.outstanding l i = [d]) :
    l.arrive (some (rs.tracker i)) (rs.dest i) =
      (⟨.change (.moved d.held.path (rs.dest i)), some d⟩,
        { l.toPairing with held := l.held.eraseP (Departed.under (some (rs.tracker i))) }.remember
          (.paired d.held.path (rs.dest i))) := by
  rw [Pairing.arrive, find?_under, h]
  rfl

theorem arrive_of_none {l : Ledger} {i : ι} (h : rs.outstanding l i = []) :
    l.arrive (some (rs.tracker i)) (rs.dest i) =
      (.ofChange (.created (rs.dest i)), l.remember (.arrived (rs.tracker i) (rs.dest i))) := by
  rw [Pairing.arrive, find?_under, h]
  rfl

variable [DecidableEq ι]

theorem Remembers.call {i : ι} {room : Nat} {l : Ledger} {x : Step rs}
    (h : rs.Remembers i (x.arriving + room) l.settled) (other : x.side? i ≠ some .both) :
    rs.Remembers i room (l.call x.call).2.settled := by
  have kept : rs.Remembers i room l.settled := h.mono (Nat.le_add_left ..)
  cases x with
  | departs j t now => exact kept
  | arrives j t now =>
    have one : rs.Remembers i ([rs.dest j].length + room) l.settled := h
    exact one.arriveAll (some (rs.tracker j))
  | both j t now =>
    change rs.Remembers i room (l.both (some (rs.tracker j)) (rs.src j) (rs.dest j)).2.settled
    unfold Pairing.both
    split
    · apply kept.erase
      rintro rfl
      exact other (Step.side?_both.mpr ⟨t, now, rfl⟩)
    · exact kept
  | leave tracker paths t now foreign => exact kept
  | enter tracker paths t now foreign => exact Remembers.arriveAll h (some tracker)
  | aside s t now aside =>
    rw [Step.call, settled_call_aside aside]
    exact kept
  | expire now => exact kept

theorem side?_of_mem_departs {i : ι} {x : Step rs} {h : Held} (hx : h ∈ x.call.departs)
    (tracker : h.tracker = some (rs.tracker i)) : x.side? i = some .departed := by
  cases x with
  | departs j t now =>
    simp only [Step.call, Call.departs, and_self, if_true, List.map_cons, List.map_nil,
      List.mem_singleton] at hx
    rw [hx] at tracker
    exact if_pos (rs.trackers_distinct (Option.some.inj tracker))
  | leave other paths t now foreign =>
    simp only [Step.call, Call.departs, and_self, if_true, List.mem_map] at hx
    obtain ⟨path, -, rfl⟩ := hx
    exact (foreign i (Option.some.inj tracker).symm).elim
  | arrives j t now => simp [Step.call, Call.departs] at hx
  | both j t now => simp [Step.call, Call.departs] at hx
  | enter other paths t now foreign => simp [Step.call, Call.departs] at hx
  | aside s t now aside =>
    rw [Step.call, Call.departs] at hx
    split at hx
    · rename_i departs
      exact (no_rename_aside aside departs).elim
    · cases hx
  | expire now => cases hx

theorem outstanding_call_sublist {l : Ledger} {i : ι} {x : Step rs} (other : x.side? i ≠ some .departed) :
    (rs.outstanding (l.call x.call).2 i).Sublist (rs.outstanding l i) := by
  have new : (Ledger.number l.next x.call.departs).filter (Departed.under (some (rs.tracker i))) = [] := by
    refine List.filter_eq_nil_iff.mpr fun d hd under => other ?_
    have held := (Ledger.mem_number.mp hd).2
    exact side?_of_mem_departs (List.mem_of_getElem? held) (Ledger.under_iff.mp under)
  have sublist := (Ledger.frame_call l x.call).held.filter (Departed.under (some (rs.tracker i)))
  rw [List.filter_append, new, List.append_nil] at sublist
  exact sublist

/-! ## The steps of one rename -/

theorem outstanding_call_of_none {l : Ledger} {i : ι} {x : Step rs} (other : x.side? i ≠ some .departed)
    (none : rs.outstanding l i = []) : rs.outstanding (l.call x.call).2 i = [] := by
  have fewer := outstanding_call_sublist (l := l) other
  rw [none] at fewer
  exact List.sublist_nil.mp fewer

/-- What may be left of a single departure is that one. -/
theorem outstanding_call_or {l : Ledger} {i : ι} {x : Step rs} {d : Departure}
    (other : x.side? i ≠ some .departed) (only : rs.outstanding l i = [d]) :
    d ∉ (l.call x.call).2.held ∧ rs.outstanding (l.call x.call).2 i = [] ∨
      d ∈ (l.call x.call).2.held ∧ rs.outstanding (l.call x.call).2 i = [d] := by
  have fewer := outstanding_call_sublist (l := l) other
  rw [only] at fewer
  have under : d.held.tracker = some (rs.tracker i) := by
    have hd : d ∈ rs.outstanding l i := only ▸ List.mem_singleton_self d
    exact (mem_outstanding.mp hd).2
  rcases List.sublist_singleton.mp fewer with none | still
  · refine .inl ⟨fun waits => ?_, none⟩
    have hd := mem_outstanding.mpr ⟨waits, under⟩
    rw [none] at hd
    cases hd
  · have hd : d ∈ rs.outstanding (l.call x.call).2 i := still ▸ List.mem_singleton_self d
    exact .inr ⟨(mem_outstanding.mp hd).1, still⟩

/-- What it takes for the steps that are left to go as they should. -/
structure Ready (l : Ledger) (rest : List (Step rs)) : Prop where
  numbered : l.Numbered
  ordered : ∀ i, sides i rest <:+ [.departed, .arrived, .both]
  few : Few rest
  /-- Only between its departure and its arrival a rename may have something that waits. -/
  waiting : ∀ i, rs.outstanding l i = [] ∨
    sides i rest = [.arrived, .both] ∧ ∃ d, rs.outstanding l i = [d] ∧ d.held.path = rs.src i
  /-- Until both its sides are signalled together a rename that arrived is remembered. -/
  settled : ∀ i, sides i rest = [.both] → rs.Remembers i (upcoming i rest) l.settled

theorem ready_start (grace : Duration) {steps : List (Step rs)} (h : Interleaves steps) :
    Ready (.start grace) steps where
  numbered := Ledger.numbered_start grace
  ordered i := (h.ordered i).symm ▸ List.suffix_refl _
  few := h.few
  waiting _ := .inl rfl
  settled i last := by
    rw [h.ordered i] at last
    cases last

theorem Ready.sides_tail {l : Ledger} {i : ι} {x : Step rs} {rest : List (Step rs)} {side : Signal.Side}
    (h : Ready l (x :: rest)) (said : x.side? i = some side) : sides i rest = following side := by
  apply eq_following
  rw [← sides_cons said]
  exact h.ordered i

section

variable {l : Ledger} {i : ι} {t : Tree} {now : Instant} {rest : List (Step rs)}

/-- Nothing waits that the rename, or another one, left. -/
theorem Ready.outstanding_departs (h : Ready l (.departs i t now :: rest)) :
    rs.outstanding (l.call (.departs i t now : Step rs).call).2 i =
      [⟨l.next, rs.src i, some (rs.tracker i), now⟩] := by
  have said : (.departs i t now : Step rs).side? i = some .departed := if_pos rfl
  have before : rs.outstanding l i = [] := by
    rcases h.waiting i with none | ⟨sides, -⟩
    · exact none
    · rw [sides_cons said] at sides
      cases sides
  change List.filter _ (l.held ++ [_]) = _
  rw [List.filter_append, ← outstanding, before, List.nil_append]
  exact List.filter_cons_of_pos (Ledger.under_iff.mpr rfl)

theorem Ready.settles (h : Ready l (.both i t now :: rest)) :
    l.settled.any (Settled.covers (rs.src i) (rs.dest i) (some (rs.tracker i))) := by
  have said : (.both i t now : Step rs).side? i = some .both := if_pos rfl
  have last : sides i (.both i t now :: rest) = [.both] := by
    rw [sides_cons said, h.sides_tail said]
    rfl
  obtain ⟨before, s, after, split, covers, -⟩ := h.settled i last
  refine List.any_eq_true.mpr ⟨s, ?_, covers⟩
  rw [split]
  exact List.mem_append_right _ List.mem_cons_self

/-- The signal about both sides says nothing new. -/
theorem Ready.call_both (h : Ready l (.both i t now :: rest)) :
    (l.call (.both i t now : Step rs).call).1 = [] := by
  change (l.both (some (rs.tracker i)) (rs.src i) (rs.dest i)).1.map (Report.map Departure.number) = []
  rw [Pairing.both, if_pos h.settles]
  rfl

/-- The arrival leaves nothing behind that waits under its tracker. -/
theorem Ready.outstanding_arrives (h : Ready l (.arrives i t now :: rest)) :
    rs.outstanding (l.call (.arrives i t now : Step rs).call).2 i = [] := by
  have fewer : rs.outstanding (l.call (.arrives i t now : Step rs).call).2 i = (rs.outstanding l i).tail :=
    (l.filter_held_arrive (some (rs.tracker i)) (rs.dest i)).1
  rw [fewer]
  rcases h.waiting i with none | ⟨-, d, only, -⟩
  · rw [none]
    rfl
  · rw [only]
    rfl

theorem Ready.remembers_arrives (h : Ready l (.arrives i t now :: rest)) :
    rs.Remembers i (upcoming i rest) (l.call (.arrives i t now : Step rs).call).2.settled := by
  have short : upcoming i rest < Pairing.memory := h.few i [] t now rest rfl
  have same (p : Path) : p.same p := Path.same_iff.mpr rfl
  change rs.Remembers i _ (l.arrive (some (rs.tracker i)) (rs.dest i)).2.settled
  rcases h.waiting i with none | ⟨-, d, only, path⟩
  · rw [arrive_of_none none]
    refine remembers_remember ?_ short l.toPairing
    simp [covers, Settled.covers, same]
  · rw [arrive_of_waiting only]
    refine remembers_remember ?_ short { l.toPairing with held := _ }
    simp [covers, Settled.covers, same, path]

theorem Ready.waiting_step {x : Step rs} (h : Ready l (x :: rest)) (j : ι) :
    rs.outstanding (l.call x.call).2 j = [] ∨
      sides j rest = [.arrived, .both] ∧
        ∃ d, rs.outstanding (l.call x.call).2 j = [d] ∧ d.held.path = rs.src j := by
  cases said : x.side? j with
  | none =>
    have other : x.side? j ≠ some .departed := by simp [said]
    have before := h.waiting j
    rw [sides_cons_of_ne said] at before
    rcases before with none | ⟨sides, d, only, path⟩
    · exact .inl (outstanding_call_of_none other none)
    · rcases outstanding_call_or other only with ⟨-, none⟩ | ⟨-, still⟩
      · exact .inl none
      · exact .inr ⟨sides, d, still, path⟩
  | some side =>
    cases side with
    | departed =>
      obtain ⟨t, now, rfl⟩ := Step.side?_departed.mp said
      exact .inr ⟨h.sides_tail said, _, h.outstanding_departs, rfl⟩
    | arrived =>
      obtain ⟨t, now, rfl⟩ := Step.side?_arrived.mp said
      exact .inl h.outstanding_arrives
    | both =>
      rcases h.waiting j with none | ⟨sides, -⟩
      · exact .inl (outstanding_call_of_none (by simp [said]) none)
      · rw [sides_cons said] at sides
        cases sides
    | unknown => exact (Step.side?_ne_unknown said).elim

theorem Ready.settled_step {x : Step rs} (h : Ready l (x :: rest)) (j : ι) (last : sides j rest = [.both]) :
    rs.Remembers j (upcoming j rest) (l.call x.call).2.settled := by
  cases said : x.side? j with
  | none =>
    have other : x.side? j ≠ some .both := by simp [said]
    have before := h.settled j (by rw [sides_cons_of_ne said, last])
    rw [upcoming_cons other] at before
    exact before.call other
  | some side =>
    have next := h.sides_tail said
    rw [last] at next
    cases side with
    | arrived =>
      obtain ⟨t, now, rfl⟩ := Step.side?_arrived.mp said
      exact h.remembers_arrives
    | departed => cases next
    | both => cases next
    | unknown => cases next

theorem Ready.step {x : Step rs} (h : Ready l (x :: rest)) : Ready (l.call x.call).2 rest where
  numbered := (Ledger.frame_call l x.call).numbered h.numbered
  ordered j := ((List.suffix_cons x rest).filterMap _).trans (h.ordered j)
  few := h.few.tail
  waiting := h.waiting_step
  settled := h.settled_step

theorem Ready.run {steps : List (Step rs)} (h : Ready l (steps ++ rest)) :
    Ready (l.run (calls steps)).2 rest := by
  induction steps generalizing l with
  | nil => exact h
  | cons x steps ih => exact ih h.step

/-! ## Between departure and arrival -/

/-- What departed at the first instant has waited for the grace time when one of the steps asks. -/
def TimesOut (grace : Duration) (since : Instant) (steps : List (Step rs)) : Prop :=
  ∃ now, .expire now ∈ steps ∧ grace ≤ Clock.elapsed since now

omit [DecidableEq ι] in
theorem timesOut_cons {grace : Duration} {since : Instant} {x : Step rs} {steps : List (Step rs)}
    (early : ¬ ∃ now, x = .expire now ∧ grace ≤ Clock.elapsed since now) :
    TimesOut grace since (x :: steps) ↔ TimesOut grace since steps := by
  constructor
  · rintro ⟨now, asked, expired⟩
    rcases List.mem_cons.mp asked with rfl | asked
    · exact (early ⟨now, rfl, expired⟩).elim
    · exact ⟨now, asked, expired⟩
  · rintro ⟨now, asked, expired⟩
    exact ⟨now, List.mem_cons_of_mem _ asked, expired⟩

/-- The steps of others leave the departure as it is, if it is not time for it. -/
theorem Ready.keeps {x : Step rs} (h : Ready l (x :: rest)) (other : x.side? i = none) {d : Departure}
    (hd : d ∈ rs.outstanding l i)
    (early : ∀ now, x = .expire now → ¬ l.grace ≤ Clock.elapsed d.held.since now) :
    d ∈ (l.call x.call).2.held := by
  obtain ⟨waits, tracker⟩ := mem_outstanding.mp hd
  refine (Ledger.call_spec h.numbered waits x.call).2.mpr ?_
  cases x with
  | departs j t now => simp [Step.call, Ledger.Releases, Ledger.Drops]
  | arrives j t now =>
    refine ⟨?_, by simp [Step.call, Ledger.Drops]⟩
    rintro ⟨-, -, same, -⟩
    have := rs.trackers_distinct (Option.some.inj (same.trans tracker))
    simp [Step.side?, this] at other
  | both j t now =>
    refine ⟨by simp [Step.call, Ledger.Releases], ?_⟩
    rintro ⟨-, -, src, dest, paths, -, unsettled⟩
    obtain ⟨rfl, rfl⟩ : rs.src j = src ∧ rs.dest j = dest := by simpa using paths
    exact unsettled h.settles
  | leave tracker paths t now foreign => simp [Step.call, Ledger.Releases, Ledger.Drops]
  | enter other paths t now foreign =>
    refine ⟨?_, by simp [Step.call, Ledger.Drops]⟩
    rintro ⟨-, -, same, -⟩
    exact foreign i (Option.some.inj (same.trans tracker)).symm
  | aside s t now aside =>
    refine ⟨fun releases => ?_, fun drops => ?_⟩
    · exact no_rename_aside aside ⟨releases.1, releases.2.1⟩
    · exact no_rename_aside aside ⟨drops.1, drops.2.1⟩
  | expire now => exact ⟨early now rfl, id⟩

theorem outstanding_run_of_none {steps : List (Step rs)} (others : ∀ x ∈ steps, x.side? i = none)
    (none : rs.outstanding l i = []) : rs.outstanding (l.run (calls steps)).2 i = [] := by
  induction steps generalizing l with
  | nil => exact none
  | cons x steps ih =>
    apply ih
    · intro y hy
      exact others y (List.mem_cons_of_mem _ hy)
    · have said := others x List.mem_cons_self
      exact outstanding_call_of_none (by simp [said]) none

/-- A departure that waits for the arrival waits until then, or is reported as gone. -/
theorem Ready.stretch {d : Departure} {steps : List (Step rs)} (h : Ready l (steps ++ rest))
    (others : ∀ x ∈ steps, x.side? i = none) (only : rs.outstanding l i = [d]) :
    (¬ TimesOut l.grace d.held.since steps → rs.outstanding (l.run (calls steps)).2 i = [d]) ∧
      (TimesOut l.grace d.held.since steps → rs.outstanding (l.run (calls steps)).2 i = [] ∧
        ⟨.change (.deleted d.held.path), some d.number⟩ ∈ (l.run (calls steps)).1) := by
  induction steps generalizing l with
  | nil =>
    refine ⟨fun _ => only, ?_⟩
    rintro ⟨now, asked, -⟩
    cases asked
  | cons x steps ih =>
    have said := others x List.mem_cons_self
    have others' : ∀ y ∈ steps, y.side? i = none := fun y hy => others y (List.mem_cons_of_mem _ hy)
    have other : x.side? i ≠ some .departed := by simp [said]
    have hd : d ∈ rs.outstanding l i := only ▸ List.mem_singleton_self d
    by_cases due : ∃ now, x = .expire now ∧ l.grace ≤ Clock.elapsed d.held.since now
    · -- it is reported here, and nothing is left to report
      obtain ⟨now, rfl, expired⟩ := due
      have waits := (mem_outstanding.mp hd).1
      have reported : ⟨.change (.deleted d.held.path), some d.number⟩ ∈ (l.call (.expire now)).1 :=
        List.mem_map.mpr ⟨⟨.change (.deleted d.held.path), some d⟩,
          List.mem_map.mpr ⟨d, List.mem_filter.mpr ⟨waits, decide_eq_true expired⟩, rfl⟩, rfl⟩
      have gone : rs.outstanding (l.call (.expire now)).2 i = [] := by
        rcases outstanding_call_or other only with ⟨-, none⟩ | ⟨still, -⟩
        · exact none
        · exact absurd expired ((Ledger.lapse_spec waits now).2.mp still)
      have after := outstanding_run_of_none others' gone
      constructor
      · intro early
        exact (early ⟨now, List.mem_cons_self, expired⟩).elim
      · intro _
        exact ⟨after, List.mem_append_left _ reported⟩
    · -- it goes on waiting
      have kept : d ∈ (l.call x.call).2.held :=
        h.keeps said hd fun now same expired => due ⟨now, same, expired⟩
      have still : rs.outstanding (l.call x.call).2 i = [d] := by
        rcases outstanding_call_or other only with ⟨gone, -⟩ | ⟨-, still⟩
        · exact absurd kept gone
        · exact still
      obtain ⟨waits, lost⟩ := ih h.step others' still
      rw [(Ledger.frame_call l x.call).grace] at waits lost
      rw [timesOut_cons due]
      constructor
      · exact waits
      · intro out
        exact ⟨(lost out).1, List.mem_append_right _ (lost out).2⟩

/-! ## All of a rename -/

theorem Interleaves.ready {before later : List (Step rs)} (h : Interleaves (before ++ later)) (grace : Duration) :
    Ready (Ledger.after grace (calls before)) later := (ready_start grace h).run

/-- What was reported of the departure when the arrival is signalled. -/
theorem Course.arrival_or_deletion {c : Course rs i} (h : Interleaves c.steps)
    (others : ∀ x ∈ c.waits, x.side? i = none) (grace : Duration) :
    (¬ TimesOut grace c.departure.2 c.waits →
      ((Ledger.after grace (calls c.untilArrival)).call c.arrives.call).1 =
        [⟨.change (.moved (rs.src i) (rs.dest i)), some c.number⟩]) ∧
    (TimesOut grace c.departure.2 c.waits →
      ((Ledger.after grace (calls c.untilArrival)).call c.arrives.call).1 =
        [⟨.change (.created (rs.dest i)), none⟩] ∧
      ⟨.change (.deleted (rs.src i)), some c.number⟩ ∈ Ledger.reports grace (calls c.untilArrival)) := by
  rw [c.steps_eq_departs] at h
  have departing := h.ready grace
  obtain ⟨kept, lost⟩ := departing.step.stretch others departing.outstanding_departs
  have sameGrace : ((Ledger.after grace (calls c.before)).call c.departs.call).2.grace = grace :=
    (Ledger.frame_call _ _).grace.trans (Ledger.frame_after grace _).grace
  rw [sameGrace, Ledger.next_after, ← after_append_cons] at kept lost
  refine ⟨fun early => ?_, fun out => ?_⟩
  · have found := arrive_of_waiting (kept early)
    exact congrArg (fun arrival => [arrival.1.map Departure.number]) found
  · obtain ⟨none, deleted⟩ := lost out
    refine ⟨?_, ?_⟩
    · have found := arrive_of_none none
      exact congrArg (fun arrival => [arrival.1.map Departure.number]) found
    · rw [Course.untilArrival, calls_append, Ledger.reports_append]
      exact List.mem_append_right _ (List.mem_append_right _ deleted)

/-- A rename is reported once: its departure and the signal about both its sides are not, and its arrival is a
move from where it departed, if that has not been reported as deleted because the grace time was over. -/
structure Course.ReportedOnce (c : Course rs i) (grace : Duration) : Prop where
  departure : delivered grace c.before c.departs = []
  ending : delivered grace c.untilBoth c.endsWith = []
  onTime : ¬ TimesOut grace c.departure.2 c.waits →
    delivered grace c.untilArrival c.arrives = [.change (.moved (rs.src i) (rs.dest i))] ∧
    (Ledger.reports grace (calls c.steps)).filter (Report.about c.number) =
      [⟨.change (.moved (rs.src i) (rs.dest i)), some c.number⟩]
  tooLate : TimesOut grace c.departure.2 c.waits →
    delivered grace c.untilArrival c.arrives = [.change (.created (rs.dest i))] ∧
    ⟨.change (.deleted (rs.src i)), some c.number⟩ ∈ Ledger.reports grace (calls c.untilArrival) ∧
    (Ledger.reports grace (calls c.steps)).filter (Report.about c.number) =
      [⟨.change (.deleted (rs.src i)), some c.number⟩]

/-- However the steps come, each rename is reported once. -/
theorem reported_once (grace : Duration) {steps : List (Step rs)} (h : Interleaves steps) (i : ι) :
    ((Pairing.start grace).run (calls steps)).1 = (Ledger.reports grace (calls steps)).map Report.event ∧
      ∃ c : Course rs i, c.steps = steps ∧ c.ReportedOnce grace := by
  refine ⟨(Ledger.forget_after grace (calls steps)).1, ?_⟩
  obtain ⟨c, rfl, others⟩ := h.course i
  obtain ⟨onTime, tooLate⟩ := c.arrival_or_deletion h others grace
  refine ⟨c, rfl, rfl, ?_, fun early => ?_, fun late => ?_⟩
  · have ending : Ready (Ledger.after grace (calls c.untilBoth)) (c.endsWith :: c.later) := h.ready grace
    rw [delivered_eq, Course.endsWith, ending.call_both]
    rfl
  · have arrival := onTime early
    have delivers := delivered_eq grace c.untilArrival c.arrives
    rw [arrival] at delivers
    refine ⟨delivers, Ledger.reports_about ?_ rfl⟩
    rw [c.steps_eq_arrives, calls_append]
    apply Ledger.mem_reports_of_call
    rw [arrival]
    exact List.mem_singleton_self _
  · obtain ⟨arrival, deleted⟩ := tooLate late
    have delivers := delivered_eq grace c.untilArrival c.arrives
    rw [arrival] at delivers
    refine ⟨delivers, deleted, Ledger.reports_about ?_ rfl⟩
    rw [c.steps_eq_arrives, calls_append]
    exact Ledger.mem_reports_append deleted _

end

/-! Two renames cross each other, and one of them takes longer than the grace time of 50. -/
namespace Crossing

def two : Renames Bool where
  tracker slow := if slow then 1 else 0
  src slow := if slow then lettered 1 else lettered 2
  dest slow := if slow then lettered 3 else lettered 4
  trackers_distinct := by decide
  ends_distinct := by decide +kernel

def t : Tree := .empty []

def steps : List (Step two) :=
  [.departs true t 0, .departs false t 40, .expire 60, .arrives false t 70, .arrives true t 70,
    .both true t 80, .both false t 80]

theorem crossing_reported_once : Interleaves steps ∧
    ((Pairing.start 50).run (calls steps)).1 =
      [.change (.deleted (lettered 1)), .change (.moved (lettered 2) (lettered 4)), .change (.created (lettered 3))] ∧
    (∃ c : Course two false, c.steps = steps ∧ c.ReportedOnce 50) ∧
    ∃ c : Course two true, c.steps = steps ∧ c.ReportedOnce 50 := by
  have interleaves : Interleaves steps := ⟨by decide, few_of_arrivals (by decide)⟩
  refine ⟨interleaves, by decide +kernel, ?_, ?_⟩
  · exact (reported_once 50 interleaves false).2
  · exact (reported_once 50 interleaves true).2

end Crossing

end Renames
end StyleFeed
