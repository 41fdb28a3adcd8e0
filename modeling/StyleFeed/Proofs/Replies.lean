import Mathlib.Data.List.Nodup
import StyleFeed.Proofs.Ledger

/-!
What the pairing replies to a call, and what it goes on holding, whatever it holds of the paths that departed. Arrivals
take the departures under their tracker in the order in which these are held: `Pairing.arriveAll_eq` and
`Pairing.filter_held_arriveAll`.
-/

namespace StyleFeed

/-- The event says that the path is gone: from the tree, or to another path. -/
def Event.Gone (path : Path) : Event → Prop
  | .change (.deleted p) | .change (.moved p _) => p.same path
  | _ => False

/-- What an arrival is, with the departure that it goes with if there is one. -/
def Change.arrival (dest : Path) : Option Held → Change
  | some h => .moved h.path dest
  | none => .created dest

variable {α : Type} [Departed α]

def Report.arrival (dest : Path) (departure : Option α) : Report α :=
  ⟨.change (.arrival dest (departure.map Departed.toHeld)), departure⟩

namespace Pairing

open Departed

/-! ## Arrivals -/

theorem arrive_eq (p : Pairing α) (tracker : Option Nat) (dest : Path) :
    (p.arrive tracker dest).1 = .arrival dest (p.held.find? (under tracker)) ∧
      (p.arrive tracker dest).2.held = p.held.eraseP (under tracker) ∧
      (p.arrive tracker dest).2.grace = p.grace := by
  unfold arrive
  cases found : p.held.find? (under tracker) with
  | some a => exact ⟨rfl, rfl, rfl⟩
  | none =>
    rw [List.eraseP_of_forall_not (List.find?_eq_none.mp found)]
    cases tracker with
    | some t => exact ⟨rfl, rfl, rfl⟩
    | none => exact ⟨rfl, rfl, rfl⟩

/-- Of the departures under its tracker an arrival takes the first, and it leaves the others alone. -/
theorem filter_held_arrive (p : Pairing α) (tracker : Option Nat) (dest : Path) :
    (p.arrive tracker dest).2.held.filter (under tracker) = (p.held.filter (under tracker)).tail ∧
      (p.arrive tracker dest).2.held.filter (!under tracker ·) = p.held.filter (!under tracker ·) := by
  rw [(p.arrive_eq tracker dest).2.1]
  induction p.held with
  | nil => exact ⟨rfl, rfl⟩
  | cons a rest ih =>
    by_cases same : under tracker a
    · simp [same]
    · simp [same, ih]

@[simp]
theorem arriveAll_nil (tracker : Option Nat) (p : Pairing α) : arriveAll tracker [] p = ([], p) := rfl

@[simp]
theorem arriveAll_cons (tracker : Option Nat) (dest : Path) (rest : List Path) (p : Pairing α) :
    arriveAll tracker (dest :: rest) p =
      ((p.arrive tracker dest).1 :: (arriveAll tracker rest (p.arrive tracker dest).2).1,
        (arriveAll tracker rest (p.arrive tracker dest).2).2) := rfl

theorem arriveAll_eq (tracker : Option Nat) (paths : List Path) (p : Pairing α) :
    (arriveAll tracker paths p).1 =
      paths.mapIdx fun i dest => .arrival dest (p.held.filter (under tracker))[i]? := by
  induction paths generalizing p with
  | nil => rfl
  | cons dest rest ih =>
    rw [arriveAll_cons, List.mapIdx_cons, ih, (p.arrive_eq tracker dest).1,
      (p.filter_held_arrive tracker dest).1, ← List.head?_filter, List.head?_eq_getElem?]
    simp only [List.getElem?_tail]

theorem filter_held_arriveAll (tracker : Option Nat) (paths : List Path) (p : Pairing α) :
    (arriveAll tracker paths p).2.held.filter (under tracker) =
        (p.held.filter (under tracker)).drop paths.length ∧
      (arriveAll tracker paths p).2.held.filter (!under tracker ·) = p.held.filter (!under tracker ·) := by
  induction paths generalizing p with
  | nil => exact ⟨rfl, rfl⟩
  | cons dest rest ih =>
    obtain ⟨taken, others⟩ := p.filter_held_arrive tracker dest
    obtain ⟨takenAll, othersAll⟩ := ih (p.arrive tracker dest).2
    constructor
    · rw [arriveAll_cons, takenAll, taken, List.length_cons, ← List.drop_one, List.drop_drop, Nat.add_comm]
    · rw [arriveAll_cons, othersAll, others]

theorem held_arriveAll (tracker : Option Nat) (paths : List Path) (p : Pairing α) :
    (arriveAll tracker paths p).2.held.Sublist p.held ∧ (arriveAll tracker paths p).2.grace = p.grace := by
  induction paths generalizing p with
  | nil => exact ⟨List.Sublist.refl _, rfl⟩
  | cons dest rest ih =>
    obtain ⟨-, held, grace⟩ := p.arrive_eq tracker dest
    obtain ⟨heldAll, graceAll⟩ := ih (p.arrive tracker dest).2
    rw [held] at heldAll
    exact ⟨heldAll.trans List.eraseP_sublist, graceAll.trans grace⟩

/-- The departures that arrivals take are as many of those under their tracker as paths arrive. -/
theorem departures_arriveAll (tracker : Option Nat) (paths : List Path) (p : Pairing α) :
    (arriveAll tracker paths p).1.filterMap (·.departure) = (p.held.filter (under tracker)).take paths.length := by
  induction paths generalizing p with
  | nil => rfl
  | cons dest rest ih =>
    have departure : (p.arrive tracker dest).1.departure = (p.held.filter (under tracker)).head? := by
      rw [(p.arrive_eq tracker dest).1, List.head?_filter]
      rfl
    have later := ih (p.arrive tracker dest).2
    rw [(p.filter_held_arrive tracker dest).1] at later
    rw [arriveAll_cons, List.length_cons]
    cases waiting : p.held.filter (under tracker) with
    | nil =>
      rw [waiting] at departure later
      rw [List.filterMap_cons_none departure, later]
      simp
    | cons a others =>
      rw [waiting] at departure later
      rw [List.filterMap_cons_some departure, later]
      rfl

/-- Of distinct items the first ones have this one among them if there are fewer before it, and else the others do. -/
theorem mem_take_drop_iff {β : Type} {before after : List β} {x : β} (distinct : (before ++ x :: after).Nodup)
    (n : Nat) : (x ∈ (before ++ x :: after).take n ↔ before.length < n) ∧
      (x ∈ (before ++ x :: after).drop n ↔ n ≤ before.length) := by
  have new : x ∉ before ++ after := (List.nodup_middle.mp distinct).notMem
  obtain ⟨unlike, unlike'⟩ : x ∉ before ∧ x ∉ after := by simpa using new
  rw [List.take_append, List.drop_append, List.mem_append, List.mem_append]
  rcases Nat.lt_or_ge before.length n with fewer | many
  · obtain ⟨k, more⟩ : ∃ k, n - before.length = k + 1 := ⟨n - before.length - 1, by omega⟩
    have past : x ∉ before.drop n ∧ x ∉ after.drop k :=
      ⟨mt List.mem_of_mem_drop unlike, mt List.mem_of_mem_drop unlike'⟩
    simp [more, past, fewer, Nat.not_le.mpr fewer]
  · have ahead : x ∉ before.take n := mt List.mem_of_mem_take unlike
    simp [Nat.sub_eq_zero_of_le many, ahead, many, Nat.not_lt.mpr many]

/-- Arrivals take the departures under their tracker in the order in which these wait. -/
theorem mem_arriveAll_iff {p : Pairing α} (distinct : p.held.Nodup) {tracker : Option Nat} {a : α}
    {before after : List α} (split : p.held = before ++ a :: after) (same : under tracker a) (paths : List Path) :
    (a ∈ (arriveAll tracker paths p).1.filterMap (·.departure) ↔
        (before.filter (under tracker)).length < paths.length) ∧
      (a ∈ (arriveAll tracker paths p).2.held ↔ paths.length ≤ (before.filter (under tracker)).length) := by
  have waiting : p.held.filter (under tracker) =
      before.filter (under tracker) ++ a :: after.filter (under tracker) := by
    rw [split, List.filter_append, List.filter_cons_of_pos same]
  have left : a ∈ (arriveAll tracker paths p).2.held ↔
      a ∈ (arriveAll tracker paths p).2.held.filter (under tracker) := by simp [same]
  rw [departures_arriveAll, left, (filter_held_arriveAll tracker paths p).1, waiting]
  exact mem_take_drop_iff (waiting ▸ distinct.filter _) paths.length

/-- Departures under another tracker go on waiting. -/
theorem mem_arriveAll_of_ne {p : Pairing α} {tracker : Option Nat} {a : α} (held : a ∈ p.held)
    (other : ¬ under tracker a) (paths : List Path) :
    a ∉ (arriveAll tracker paths p).1.filterMap (·.departure) ∧ a ∈ (arriveAll tracker paths p).2.held := by
  constructor
  · rw [departures_arriveAll]
    exact fun taken => other (List.mem_filter.mp (List.mem_of_mem_take taken)).2
  · have kept : a ∈ p.held.filter (!under tracker ·) := by simp [held, other]
    rw [← (filter_held_arriveAll tracker paths p).2] at kept
    exact List.mem_of_mem_filter kept

/-! ## Replies -/

theorem departures_lapse (p : Pairing α) (now : Instant) :
    (p.lapse now).1.filterMap (·.departure) = p.held.filter (p.Due now ·) := by
  simp only [lapse, List.filterMap_map, Function.comp_def, List.filterMap_some]

variable (p : Pairing α) (departing : List α) (c : Call)

/-- Nothing comes to be held but what departs. -/
theorem held_reply :
    (p.reply departing c).2.held.Sublist (p.held ++ departing) ∧ (p.reply departing c).2.grace = p.grace := by
  have fewer {held : List α} (sublist : held.Sublist p.held) : held.Sublist (p.held ++ departing) :=
    sublist.trans (List.sublist_append_left ..)
  cases c with
  | expire now => exact ⟨fewer List.filter_sublist, rfl⟩
  | signal t s now =>
    rw [reply]
    cases meaning α t s with
    | departs _ _ answer =>
      rw [answer]
      exact ⟨List.Sublist.refl _, rfl⟩
    | arrives _ _ answer =>
      rw [answer]
      obtain ⟨sublist, grace⟩ := held_arriveAll s.tracker s.paths p
      exact ⟨fewer sublist, grace⟩
    | both src dest _ _ _ answer =>
      rw [answer, both]
      split
      · exact ⟨fewer (List.Sublist.refl _), rfl⟩
      · exact ⟨fewer List.filter_sublist, rfl⟩
    | aside _ _ _ reports _ answer =>
      rw [answer]
      exact ⟨fewer (List.Sublist.refl _), rfl⟩

/-- What is reported was held, in this order. -/
theorem departures_reply : ((p.reply departing c).1.filterMap (·.departure)).Sublist p.held := by
  cases c with
  | expire now =>
    rw [reply, departures_lapse]
    exact List.filter_sublist
  | signal t s now =>
    rw [reply]
    cases meaning α t s with
    | departs _ _ answer =>
      rw [answer]
      exact List.nil_sublist _
    | arrives _ _ answer =>
      rw [answer, departures_arriveAll]
      exact (List.take_sublist ..).trans List.filter_sublist
    | both src dest _ _ _ answer =>
      rw [answer, both]
      split
      · exact List.nil_sublist _
      · exact List.nil_sublist _
    | aside _ _ _ reports about answer =>
      rw [answer, List.filterMap_eq_nil_iff.mpr about]
      exact List.nil_sublist _

variable {p departing c}

/-- What is reported of a departure is that its path is gone. -/
theorem gone_of_reply {r : Report α} (reported : r ∈ (p.reply departing c).1) {a : α} (about : r.departure = some a) :
    r.event.Gone (path a) := by
  have same : (path a).same (path a) := Path.same_iff.mpr rfl
  cases c with
  | expire now =>
    obtain ⟨b, -, rfl⟩ := List.mem_map.mp reported
    cases about
    exact same
  | signal t s now =>
    rw [reply] at reported
    cases meaning α t s with
    | departs _ _ answer =>
      rw [answer] at reported
      cases reported
    | arrives _ _ answer =>
      rw [answer, arriveAll_eq] at reported
      obtain ⟨i, lt, rfl⟩ := List.mem_mapIdx.mp reported
      rw [Report.arrival] at about ⊢
      dsimp only at about
      rw [about]
      exact same
    | both src dest _ _ _ answer =>
      rw [answer, both] at reported
      split at reported
      · cases reported
      · rw [List.mem_singleton.mp reported] at about
        cases about
    | aside _ _ _ reports unrelated answer =>
      rw [answer] at reported
      rw [unrelated r reported] at about
      cases about

end Pairing
end StyleFeed
