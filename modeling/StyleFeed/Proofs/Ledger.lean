import StyleFeed.Pairing

/-!
The pairing with its departures numbered, so that each report can be traced to the departure it is about. It is the
same pairing, with something else held: `Ledger.forget_call` for one call, `Ledger.forget_run` for a run.
-/

namespace StyleFeed

/-- What may be asked of the pairing. -/
inductive Call
  | signal (t : Tree) (s : Signal) (now : Instant)
  | expire (now : Instant)

/-- The paths that depart with the call. -/
def Call.departs : Call → List Held
  | .signal _ s now =>
    if s.lossy = false ∧ s.kind = .rename .departed then s.paths.map (⟨·, s.tracker, now⟩) else []
  | .expire _ => []

/-- When the call is made. -/
def Call.time : Call → Instant
  | .signal _ _ now | .expire now => now

theorem Call.since_of_mem_departs {c : Call} {h : Held} (mem : h ∈ c.departs) : h.since = c.time := by
  cases c with
  | expire now => cases mem
  | signal t s now =>
    rw [departs] at mem
    split at mem
    · obtain ⟨path, -, rfl⟩ := List.mem_map.mp mem
      rfl
    · cases mem

/-- All that depart over some calls, in this order. -/
def departures (calls : List Call) : List Held := calls.flatMap Call.departs

@[simp]
theorem departures_cons (c : Call) (rest : List Call) :
    departures (c :: rest) = c.departs ++ departures rest := List.flatMap_cons

@[simp]
theorem departures_append (before later : List Call) :
    departures (before ++ later) = departures before ++ departures later := List.flatMap_append

/-- A file by a name of two letters, for examples. -/
def lettered (n : Nat) : Path := ⟨[(0x61 + n / 16).toUInt8, (0x61 + n % 16).toUInt8]⟩

def Report.map {α β : Type} (f : α → β) (r : Report α) : Report β := ⟨r.event, r.departure.map f⟩

namespace Pairing

def call (p : Pairing) : Call → List Event × Pairing
  | .signal t s now => p.convert t s now
  | .expire now => p.expire now

/-- All that is delivered over some calls, and the pairing after them. -/
def run (p : Pairing) : List Call → List Event × Pairing
  | [] => ([], p)
  | c :: rest =>
    let (events, p) := p.call c
    let (more, p) := run p rest
    (events ++ more, p)

variable {α β : Type}

/-- The same with other things held. -/
def map (f : α → β) (p : Pairing α) : Pairing β := ⟨p.grace, p.held.map f, p.settled⟩

variable [Departed α] [Departed β]

/-- What a call comes to, when the paths that depart with it are to be held like this. -/
def reply (p : Pairing α) (departing : List α) : Call → List (Report α) × Pairing α
  | .signal t s _ => p.answer t s departing
  | .expire now => p.lapse now

variable (α) in
/-- What a signal means to the pairing. -/
inductive Meaning (t : Tree) (s : Signal) : Prop
  | departs (clean : s.lossy = false) (kind : s.kind = .rename .departed)
    (answer : ∀ (p : Pairing α) departing, p.answer t s departing = ([], p.depart departing))
  | arrives (clean : s.lossy = false) (kind : s.kind = .rename .arrived)
    (answer : ∀ (p : Pairing α) departing, p.answer t s departing = arriveAll s.tracker s.paths p)
  | both (src dest : Path) (clean : s.lossy = false) (kind : s.kind = .rename .both) (paths : s.paths = [src, dest])
    (answer : ∀ (p : Pairing α) departing, p.answer t s departing = p.both s.tracker src dest)
  /-- It is about nothing that is held, and leaves that as it is. -/
  | aside (departed : ¬ (s.lossy = false ∧ s.kind = .rename .departed))
    (arrived : ¬ (s.lossy = false ∧ s.kind = .rename .arrived))
    (both : ∀ src dest, ¬ (s.lossy = false ∧ s.kind = .rename .both ∧ s.paths = [src, dest]))
    (reports : List (Report α)) (about : ∀ r ∈ reports, r.departure = none)
    (answer : ∀ (p : Pairing α) departing, p.answer t s departing = (reports, p))

variable (α) in
theorem meaning (t : Tree) (s : Signal) : Meaning α t s := by
  obtain ⟨kind, paths, tracker, lossy⟩ := s
  cases lossy with
  | true => exact .aside (by simp) (by simp) (by simp) _ (by simp) fun p departing => rfl
  | false =>
    cases kind with
    | rename side =>
      cases side with
      | departed => exact .departs rfl rfl fun p departing => rfl
      | arrived => exact .arrives rfl rfl fun p departing => rfl
      | both =>
        match paths with
        | [src, dest] => exact .both src dest rfl rfl rfl fun p departing => rfl
        | [] | [_] | _ :: _ :: _ :: _ =>
          exact .aside (by simp) (by simp) (by simp) _ (by simp [Report.ofChange]) fun p departing => rfl
      | unknown => exact .aside (by simp) (by simp) (by simp) _ (by simp [Report.ofChange]) fun p departing => rfl
    | _ => exact .aside (by simp) (by simp) (by simp) _ (by simp [Report.ofChange]) fun p departing => rfl

/-- A signal about a rename, when nothing was lost. -/
theorem answer_rename {s : Signal} (clean : s.lossy = false) {side : Signal.Side} (kind : s.kind = .rename side)
    (t : Tree) (p : Pairing α) (departing : List α) :
    p.answer t s departing = p.rename t side s.tracker departing s.paths := by
  rw [answer, clean, kind]
  rfl

/-- What paths depart with a signal matters only if it says so. -/
theorem answer_eq_of_stays {s : Signal} (stays : ¬ (s.lossy = false ∧ s.kind = .rename .departed)) (t : Tree)
    (p : Pairing α) (departing : List α) : p.answer t s departing = p.answer t s [] := by
  cases meaning α t s with
  | departs clean kind => exact absurd ⟨clean, kind⟩ stays
  | arrives _ _ answer => rw [answer, answer]
  | both _ _ _ _ _ answer => rw [answer, answer]
  | aside _ _ _ _ _ answer => rw [answer, answer]

theorem expire_eq_filter (p : Pairing) (now : Instant) :
    p.expire now = ((p.held.filter (p.Due now ·)).map (.change <| .deleted ·.path),
      { p with held := p.held.filter (¬ p.Due now ·) }) := by
  simp only [expire, lapse, List.map_map]
  rfl

theorem call_eq_reply (p : Pairing) (c : Call) :
    p.call c = ((p.reply c.departs c).1.map Report.event, (p.reply c.departs c).2) := by
  cases c with
  | expire now => rfl
  | signal t s now =>
    rw [Call.departs]
    split
    · rfl
    · rename_i stays
      rw [call, convert, answer_eq_of_stays stays]
      rfl

/-! ## What else is held makes no difference -/

section
variable {f : α → β} (same : ∀ a, Departed.toHeld (f a) = Departed.toHeld a)
include same

theorem under_comp (tracker : Option Nat) : Departed.under tracker ∘ f = Departed.under tracker := by
  funext a
  simp [Departed.under, same]

theorem path_map (a : α) : Departed.path (f a) = Departed.path a := congrArg Held.path (same a)

theorem arrive_map (p : Pairing α) (tracker : Option Nat) (dest : Path) :
    (p.map f).arrive tracker dest = ((p.arrive tracker dest).1.map f, (p.arrive tracker dest).2.map f) := by
  have found : (p.map f).held.find? (Departed.under tracker) =
      (p.held.find? (Departed.under tracker)).map f := by
    rw [map, List.find?_map, under_comp same]
  unfold arrive
  rw [found]
  cases p.held.find? (Departed.under tracker) with
  | some a =>
    simp only [Option.map_some, path_map same, map, List.eraseP_map, under_comp same]
    rfl
  | none => cases tracker <;> rfl

theorem arriveAll_map (tracker : Option Nat) (paths : List Path) (p : Pairing α) :
    arriveAll tracker paths (p.map f) =
      ((arriveAll tracker paths p).1.map (.map f), (arriveAll tracker paths p).2.map f) := by
  induction paths generalizing p with
  | nil => rfl
  | cons dest rest ih => simp only [arriveAll, arrive_map same, ih, List.map_cons]

theorem both_map (p : Pairing α) (tracker : Option Nat) (src dest : Path) :
    (p.map f).both tracker src dest =
      ((p.both tracker src dest).1.map (.map f), (p.both tracker src dest).2.map f) := by
  have settled : (p.map f).settled = p.settled := rfl
  unfold both
  rw [settled]
  split
  · rfl
  · simp only [map, List.filter_map, Function.comp_def, path_map same]
    rfl

theorem lapse_map (p : Pairing α) (now : Instant) :
    (p.map f).lapse now = ((p.lapse now).1.map (.map f), (p.lapse now).2.map f) := by
  have due (a : α) : (p.map f).Due now (f a) = p.Due now a := by
    rw [Due, Due, Departed.since, same]
    rfl
  have held : (p.map f).held = p.held.map f := rfl
  simp only [lapse, held, List.filter_map, List.map_map, Function.comp_def, due, path_map same]
  rfl

theorem rename_map (t : Tree) (p : Pairing α) (side : Signal.Side) (tracker : Option Nat) (departing : List α)
    (paths : List Path) : (p.map f).rename t side tracker (departing.map f) paths =
      ((p.rename t side tracker departing paths).1.map (.map f),
        (p.rename t side tracker departing paths).2.map f) := by
  cases side with
  | departed => simp [rename, depart, map]
  | arrived => exact arriveAll_map same tracker paths p
  | both =>
    match paths with
    | [src, dest] => exact both_map same p tracker src dest
    | [] => rfl
    | [_] => rfl
    | _ :: _ :: _ :: _ => simp [rename, Report.map, Report.ofChange]
  | unknown => simp [rename, Report.map, Report.ofChange]

theorem answer_map (t : Tree) (p : Pairing α) (s : Signal) (departing : List α) :
    (p.map f).answer t s (departing.map f) =
      ((p.answer t s departing).1.map (.map f), (p.answer t s departing).2.map f) := by
  unfold answer
  split
  · rfl
  · cases s.kind with
    | rename side => exact rename_map same t p side s.tracker departing s.paths
    | _ => simp [Report.map, Report.ofChange]

theorem reply_map (p : Pairing α) (departing : List α) (c : Call) :
    (p.map f).reply (departing.map f) c =
      ((p.reply departing c).1.map (.map f), (p.reply departing c).2.map f) := by
  cases c with
  | signal t s now => exact answer_map same t p s departing
  | expire now => exact lapse_map same p now

end

end Pairing

/-- A path that departed; departures are numbered in the order in which they are signalled. -/
structure Departure where
  number : Nat
  held : Held
deriving DecidableEq

instance : Departed Departure := ⟨Departure.held⟩

def Report.about (n : Nat) (r : Report Nat) : Bool := r.departure == some n

theorem Report.about_iff {n : Nat} {r : Report Nat} : r.about n ↔ r.departure = some n := beq_iff_eq

structure Ledger extends Pairing Departure where
  /-- The number of departures so far. -/
  next : Nat

namespace Ledger

def start (grace : Duration) : Ledger := ⟨⟨grace, [], []⟩, 0⟩

/-- Held paths with the numbers from this one on. -/
def number (next : Nat) : List Held → List Departure
  | [] => []
  | h :: rest => ⟨next, h⟩ :: number (next + 1) rest

def call (l : Ledger) (c : Call) : List (Report Nat) × Ledger :=
  let (reports, p) := l.reply (number l.next c.departs) c
  (reports.map (.map Departure.number), ⟨p, l.next + c.departs.length⟩)

def run (l : Ledger) : List Call → List (Report Nat) × Ledger
  | [] => ([], l)
  | c :: rest =>
    let (reports, l) := l.call c
    let (more, l) := run l rest
    (reports ++ more, l)

/-! ## Forgetting the numbers -/

def forget (l : Ledger) : Pairing := l.map Departure.held

@[simp]
theorem map_held_number (next : Nat) (hs : List Held) : (number next hs).map (·.held) = hs := by
  induction hs generalizing next with
  | nil => rfl
  | cons h rest ih => exact congrArg (h :: ·) (ih (next + 1))

theorem forget_call (l : Ledger) (c : Call) :
    (l.forget.call c).1 = (l.call c).1.map Report.event ∧ (l.forget.call c).2 = (l.call c).2.forget := by
  have same := Pairing.reply_map (f := Departure.held) (fun _ => rfl) l.toPairing (number l.next c.departs) c
  rw [map_held_number] at same
  rw [Pairing.call_eq_reply, forget, same]
  refine ⟨?_, rfl⟩
  simp only [call, List.map_map]
  rfl

theorem forget_run (l : Ledger) (calls : List Call) :
    (l.forget.run calls).1 = (l.run calls).1.map Report.event ∧
      (l.forget.run calls).2 = (l.run calls).2.forget := by
  induction calls generalizing l with
  | nil => exact ⟨rfl, rfl⟩
  | cons c rest ih =>
    obtain ⟨events, after⟩ := forget_call l c
    obtain ⟨more, last⟩ := ih (l.call c).2
    simp only [Pairing.run, run, List.map_append, events, after, more, last, and_self]

end Ledger
end StyleFeed
