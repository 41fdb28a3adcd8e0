import Mathlib.Algebra.Order.Group.Multiset
import Mathlib.Tactic.Abel
import StyleFeed.Proofs.Replies

/-!
No departure is lost and none is used twice: `Pairing.departures_accounted_for`. Each path that departed is held
still, or has been reported as where an arrival came from, or as deleted, or was let go with the report of a move
from there that names both its ends. An arrival takes the departure that is held longest under its own tracker.
-/

namespace StyleFeed

/-- Where the event says that something has moved from. -/
def Event.source? : Event → Option Path
  | .change (.moved src _) => some src
  | _ => none

/-- What the event says was deleted. -/
def Event.deleted? : Event → Option Path
  | .change (.deleted path) => some path
  | _ => none

/-- The paths, as often as they are held. -/
def Held.paths (hs : List Held) : Multiset Path := hs.map (·.path)

namespace Held

@[simp]
theorem paths_nil : paths [] = 0 := rfl

@[simp]
theorem paths_append (hs hs' : List Held) : paths (hs ++ hs') = paths hs + paths hs' := by
  rw [paths, List.map_append, ← Multiset.coe_add]
  rfl

theorem paths_filter_add (hs : List Held) (p : Held → Bool) :
    paths (hs.filter p) + paths (hs.filter (!p ·)) = paths hs := by
  rw [← paths_append]
  exact Multiset.coe_eq_coe.mpr ((List.filter_append_perm p hs).map _)

end Held

namespace Pairing

/-- The paths that the call reports arrivals from. -/
def matched (p : Pairing) : Call → Multiset Path
  | .signal t s now =>
    if s.lossy = false ∧ s.kind = .rename .arrived then (p.convert t s now).1.filterMap Event.source? else 0
  | .expire _ => 0

/-- The paths that the call reports as deleted since they were held for too long. -/
def lapsed (p : Pairing) : Call → Multiset Path
  | .expire now => (p.expire now).1.filterMap Event.deleted?
  | .signal .. => 0

/-- The held paths that a signal about both sides lets go. -/
def superseded (p : Pairing) : Call → Multiset Path
  | .signal t s now =>
    if s.lossy = false ∧ s.kind = .rename .both then
      Held.paths p.held - Held.paths (p.convert t s now).2.held
    else 0
  | .expire _ => 0

/-- What single calls come to over some of them. -/
def total (count : Pairing → Call → Multiset Path) (p : Pairing) : List Call → Multiset Path
  | [] => 0
  | c :: rest => count p c + total count (p.call c).2 rest

/-! ## Calls -/

/-- What arrivals are reported from are the departures that they take. -/
theorem sources_arriveAll (tracker : Option Nat) (paths : List Path) (p : Pairing) :
    ((arriveAll tracker paths p).1.map Report.event).filterMap Event.source? =
      ((p.held.filter (Departed.under tracker)).take paths.length).map (·.path) := by
  rw [← departures_arriveAll, List.map_filterMap, List.filterMap_map, arriveAll_eq]
  apply List.filterMap_congr
  intro r reported
  obtain ⟨i, lt, rfl⟩ := List.mem_mapIdx.mp reported
  simp only [Report.arrival, Function.comp_apply]
  cases (p.held.filter (Departed.under tracker))[i]? with
  | none => rfl
  | some h => rfl

theorem paths_arriveAll (tracker : Option Nat) (paths : List Path) (p : Pairing) :
    Held.paths p.held = Held.paths (arriveAll tracker paths p).2.held +
      (((arriveAll tracker paths p).1.map Report.event).filterMap Event.source? : List Path) := by
  obtain ⟨left, others⟩ := filter_held_arriveAll tracker paths p
  have taken : Held.paths (p.held.filter (Departed.under tracker)) =
      Held.paths ((p.held.filter (Departed.under tracker)).take paths.length) +
        Held.paths ((p.held.filter (Departed.under tracker)).drop paths.length) := by
    rw [← Held.paths_append, List.take_append_drop]
  rw [sources_arriveAll, ← Held.paths_filter_add p.held (Departed.under tracker), taken,
    ← Held.paths_filter_add (arriveAll tracker paths p).2.held (Departed.under tracker), left, others, ← Held.paths]
  abel

theorem convert_rename {s : Signal} (clean : s.lossy = false) {side : Signal.Side} (kind : s.kind = .rename side)
    (t : Tree) (p : Pairing) (now : Instant) :
    p.convert t s now =
      ((p.rename t side s.tracker (s.paths.map (⟨·, s.tracker, now⟩)) s.paths).1.map Report.event,
        (p.rename t side s.tracker (s.paths.map (⟨·, s.tracker, now⟩)) s.paths).2) := by
  rw [convert, answer_rename clean kind]

theorem convert_arrived {s : Signal} (clean : s.lossy = false) (kind : s.kind = .rename .arrived) (t : Tree)
    (p : Pairing) (now : Instant) : p.convert t s now =
      ((arriveAll s.tracker s.paths p).1.map Report.event, (arriveAll s.tracker s.paths p).2) :=
  convert_rename clean kind t p now

/-- A signal about both sides says nothing new, or lets go what is held under its source. -/
theorem convert_both {s : Signal} (clean : s.lossy = false) (kind : s.kind = .rename .both) (t : Tree)
    (p : Pairing) (now : Instant) :
    (p.convert t s now).2.held = p.held ∨
      ∃ src dest, s.paths = [src, dest] ∧ (p.convert t s now).1 = [.change (.moved src dest)] ∧
        (p.convert t s now).2.held = p.held.filter (!·.path.same src) := by
  rw [convert_rename clean kind]
  rcases paths : s.paths with _ | ⟨src, _ | ⟨dest, _ | ⟨other, more⟩⟩⟩
  · exact .inl rfl
  · exact .inl rfl
  · simp only [rename, both]
    split
    · exact .inl rfl
    · exact .inr ⟨src, dest, rfl, rfl, rfl⟩
  · exact .inl rfl

theorem mem_superseded {p : Pairing} {t : Tree} {s : Signal} {now : Instant} {path : Path}
    (h : path ∈ p.superseded (.signal t s now)) :
    ∃ src dest, s.paths = [src, dest] ∧ (p.convert t s now).1 = [.change (.moved src dest)] ∧
      path.same src := by
  rw [superseded] at h
  split at h
  · rename_i about
    rcases convert_both about.1 about.2 t p now with kept | ⟨src, dest, paths, moved, kept⟩
    · rw [kept, Multiset.mem_sub] at h
      exact absurd h (Nat.lt_irrefl _)
    · rw [kept, ← Held.paths_filter_add p.held (·.path.same src), Multiset.add_sub_cancel_right] at h
      obtain ⟨x, hx, rfl⟩ := List.mem_map.mp (Multiset.mem_coe.mp h)
      exact ⟨src, dest, paths, moved, (List.mem_filter.mp hx).2⟩
  · exact absurd h (Multiset.notMem_zero _)

/-- Nothing that is held comes from nowhere or goes without a report. -/
def Accounts (p : Pairing) (c : Call) : Prop :=
  Held.paths p.held + Held.paths c.departs =
    Held.paths (p.call c).2.held + p.matched c + p.lapsed c + p.superseded c

theorem accounts_expire (p : Pairing) (now : Instant) : p.Accounts (.expire now) := by
  have lapsed : p.lapsed (.expire now) = Held.paths (p.held.filter (p.Due now ·)) := by
    simp only [Pairing.lapsed, expire_eq_filter, List.filterMap_map, Held.paths]
    exact congrArg _ (congrFun List.filterMap_eq_map' _)
  have waiting : (p.call (.expire now)).2.held = p.held.filter (!p.Due now ·) := by
    simp [call, expire_eq_filter]
  rw [Accounts, lapsed, waiting, ← Held.paths_filter_add p.held (p.Due now ·)]
  simp only [Call.departs, matched, superseded, Held.paths_nil]
  abel

section
variable {s : Signal} (clean : s.lossy = false) (t : Tree) (p : Pairing) (now : Instant)
include clean

theorem accounts_departed (kind : s.kind = .rename .departed) : p.Accounts (.signal t s now) := by
  have held : (p.call (.signal t s now)).2.held = p.held ++ (Call.signal t s now).departs := by
    rw [call, convert_rename clean kind, Call.departs, if_pos ⟨clean, kind⟩]
    rfl
  simp [Accounts, held, matched, lapsed, superseded, kind]

theorem accounts_arrived (kind : s.kind = .rename .arrived) : p.Accounts (.signal t s now) := by
  rw [Accounts, paths_arriveAll s.tracker s.paths p, call, matched, if_pos ⟨clean, kind⟩,
    convert_arrived clean kind]
  simp [Call.departs, lapsed, superseded, kind]

theorem accounts_both (kind : s.kind = .rename .both) : p.Accounts (.signal t s now) := by
  have fewer : Held.paths (p.convert t s now).2.held ≤ Held.paths p.held := by
    rcases convert_both clean kind t p now with kept | ⟨src, -, -, -, kept⟩
    · rw [kept]
    · rw [kept, ← Held.paths_filter_add p.held (·.path.same src)]
      exact Multiset.le_add_left _ _
  rw [Accounts, superseded, if_pos ⟨clean, kind⟩, call]
  simp only [Call.departs, matched, lapsed, kind, reduceCtorEq, Signal.Kind.rename.injEq, and_false, if_false,
    add_zero, Held.paths_nil]
  rw [add_comm, Multiset.sub_add_cancel fewer]

end

theorem accounts_call (p : Pairing) (c : Call) : p.Accounts c := by
  cases c with
  | expire now => exact p.accounts_expire now
  | signal t s now =>
    cases meaning Held t s with
    | departs clean kind => exact accounts_departed clean t p now kind
    | arrives clean kind => exact accounts_arrived clean t p now kind
    | both _ _ clean kind => exact accounts_both clean t p now kind
    | aside departed arrived _ _ _ answer =>
      by_cases both : s.lossy = false ∧ s.kind = .rename .both
      · exact accounts_both both.1 t p now both.2
      · have kept : (p.convert t s now).2 = p := by rw [convert, answer]
        simp [Accounts, Call.departs, call, kept, matched, lapsed, superseded, departed, arrived, both]

theorem paths_run (p : Pairing) (calls : List Call) :
    Held.paths p.held + Held.paths (departures calls) =
      Held.paths (p.run calls).2.held + total matched p calls + total lapsed p calls +
        total superseded p calls := by
  induction calls generalizing p with
  | nil => simp [departures, run, total]
  | cons c rest ih =>
    have after : (p.run (c :: rest)).2 = ((p.call c).2.run rest).2 := rfl
    have first := p.accounts_call c
    have later := ih (p.call c).2
    rw [departures_cons, Held.paths_append, after, total, total, total]
    calc Held.paths p.held + (Held.paths c.departs + Held.paths (departures rest))
      _ = Held.paths (p.call c).2.held + Held.paths (departures rest) + p.matched c + p.lapsed c +
          p.superseded c := by rw [← add_assoc, first]; abel
      _ = _ := by rw [later]; abel

/-- Whatever is held after a call was held before it, or departs with it. -/
theorem held_call (p : Pairing) (c : Call) :
    (p.call c).2.grace = p.grace ∧ (p.call c).2.held.Sublist (p.held ++ c.departs) := by
  obtain ⟨held, grace⟩ := p.held_reply c.departs c
  rw [call_eq_reply]
  exact ⟨grace, held⟩

theorem held_run (p : Pairing) (calls : List Call) :
    (p.run calls).2.held.Sublist (p.held ++ departures calls) := by
  induction calls generalizing p with
  | nil => exact List.sublist_append_left ..
  | cons c rest ih =>
    rw [departures_cons, ← List.append_assoc]
    exact (ih (p.call c).2).trans ((p.held_call c).2.append_right _)

/-- What is held is in the order of departure. -/
theorem held_sublist (grace : Duration) (calls : List Call) :
    ((start grace).run calls).2.held.Sublist (departures calls) := held_run (start grace) calls

/-- Over any calls, the paths that departed are those that are still held, those that arrivals are reported from,
those that are reported as deleted, and those that are let go as a signal names both ends of a move from there.
Each path that arrives is reported once, in order: as a move from the departure that is held longest under the
tracker, which is not used again, and without one as created. -/
theorem departures_accounted_for (grace : Duration) (calls : List Call) :
    let p := ((start grace).run calls).2
    Held.paths (departures calls) =
      Held.paths p.held + total matched (start grace) calls + total lapsed (start grace) calls +
        total superseded (start grace) calls ∧
    p.held.Sublist (departures calls) ∧
    ∀ t s now, s.lossy = false →
      (s.kind = .rename .arrived →
        (p.convert t s now).1 = (s.paths.mapIdx fun i dest =>
          Change.arrival dest (p.held.filter (Departed.under s.tracker))[i]?).map .change ∧
        (p.convert t s now).2.held.filter (Departed.under s.tracker) =
          (p.held.filter (Departed.under s.tracker)).drop s.paths.length ∧
        (p.convert t s now).2.held.filter (!Departed.under s.tracker ·) =
          p.held.filter (!Departed.under s.tracker ·)) ∧
      ∀ path ∈ p.superseded (.signal t s now), ∃ src dest, s.paths = [src, dest] ∧
        (p.convert t s now).1 = [.change (.moved src dest)] ∧ path.same src := by
  intro p
  refine ⟨?_, held_sublist grace calls, fun t s now clean => ⟨fun kind => ?_, fun path => mem_superseded⟩⟩
  · rw [← paths_run]
    exact (zero_add _).symm
  · obtain ⟨rest, others⟩ := filter_held_arriveAll s.tracker s.paths p
    rw [convert_arrived clean kind]
    refine ⟨?_, rest, others⟩
    have itself (h : Option Held) : h.map Departed.toHeld = h := Option.map_id'
    rw [arriveAll_eq]
    apply List.ext_getElem?
    intro i
    simp [Report.arrival, itself, Function.comp_def]

/-! Of four departures one arrives, one is let go and one is held for too long. The last two arrivals find one. -/
namespace FourDepartures

def t : Tree := .empty []

def calls : List Call :=
  [.signal t ⟨.rename .departed, [lettered 1, lettered 2], some 7, false⟩ 0,
    .signal t ⟨.rename .departed, [lettered 1, lettered 3], none, false⟩ 30,
    .signal t ⟨.rename .arrived, [lettered 4], some 7, false⟩ 40,
    .signal t ⟨.rename .both, [lettered 3, lettered 5], none, false⟩ 20,
    .expire 60]

def arrival : Signal := ⟨.rename .arrived, [lettered 6, lettered 7], none, false⟩

theorem accounted_for : arrival.lossy = false ∧ arrival.kind = .rename .arrived ∧
    Held.paths (departures calls) = {lettered 1} + {lettered 1} + {lettered 2} + {lettered 3} ∧
    ((((start 50).run calls).2).convert t arrival 70).1 =
      [.change (.moved (lettered 1) (lettered 6)), .change (.created (lettered 7))] := by
  obtain ⟨sum, -, each⟩ := departures_accounted_for 50 calls
  refine ⟨rfl, rfl, ?_, ?_⟩
  · rw [sum]
    decide
  · rw [((each t arrival 70 rfl).1 rfl).1]
    decide

end FourDepartures

end Pairing
end StyleFeed
