import StyleFeed.Proofs.Reports

/-!
Renames whose signals come in any order with each other's and with everything else. Each rename is signalled
three times: its departure, its arrival, and both together.
-/

namespace StyleFeed

/-- Renames that are told apart by their trackers, and by where they lead from and to. -/
structure Renames (ι : Type) where
  tracker : ι → Nat
  src : ι → Path
  dest : ι → Path
  trackers_distinct : ∀ {i j}, tracker i = tracker j → i = j
  ends_distinct : ∀ {i j}, (src i).same (src j) → (dest i).same (dest j) → i = j

namespace Renames

variable {ι : Type}

/-- A call in the course of the renames. -/
inductive Step (rs : Renames ι)
  | departs (i : ι) (t : Tree) (now : Instant)
  | arrives (i : ι) (t : Tree) (now : Instant)
  | both (i : ι) (t : Tree) (now : Instant)
  /-- Paths depart that are no rename's. -/
  | leave (tracker : Nat) (paths : List Path) (t : Tree) (now : Instant)
    (foreign : ∀ i, rs.tracker i ≠ tracker)
  /-- Paths arrive that are no rename's. -/
  | enter (tracker : Nat) (paths : List Path) (t : Tree) (now : Instant)
    (foreign : ∀ i, rs.tracker i ≠ tracker)
  /-- A signal that is not about renames, or lossy. -/
  | aside (s : Signal) (t : Tree) (now : Instant) (aside : s.lossy ∨ ∀ side, s.kind ≠ .rename side)
  | expire (now : Instant)

variable {rs : Renames ι}

namespace Step

def call : Step rs → Call
  | .departs i t now => .signal t ⟨.rename .departed, [rs.src i], some (rs.tracker i), false⟩ now
  | .arrives i t now => .signal t ⟨.rename .arrived, [rs.dest i], some (rs.tracker i), false⟩ now
  | .both i t now => .signal t ⟨.rename .both, [rs.src i, rs.dest i], some (rs.tracker i), false⟩ now
  | .leave tracker paths t now _ => .signal t ⟨.rename .departed, paths, some tracker, false⟩ now
  | .enter tracker paths t now _ => .signal t ⟨.rename .arrived, paths, some tracker, false⟩ now
  | .aside s t now _ => .signal t s now
  | .expire now => .expire now

/-- How many paths arrive. -/
def arriving : Step rs → Nat
  | .arrives _ _ _ => 1
  | .enter _ paths _ _ _ => paths.length
  | _ => 0

end Step

/-- How many paths arrive in all. -/
def arrivals : List (Step rs) → Nat
  | [] => 0
  | x :: rest => x.arriving + arrivals rest

theorem arrivals_append (before later : List (Step rs)) :
    arrivals (before ++ later) = arrivals before + arrivals later := by
  induction before with
  | nil => exact (Nat.zero_add _).symm
  | cons x before ih => rw [List.cons_append, arrivals, ih, arrivals, Nat.add_assoc]

def calls (steps : List (Step rs)) : List Call := steps.map Step.call

/-- What is delivered for a step after others. -/
def delivered (grace : Duration) (before : List (Step rs)) (x : Step rs) : List Event :=
  (((Pairing.start grace).run (calls before)).2.call x.call).1

theorem delivered_eq (grace : Duration) (before : List (Step rs)) (x : Step rs) :
    delivered grace before x = ((Ledger.after grace (calls before)).call x.call).1.map Report.event := by
  rw [delivered, (Ledger.forget_after grace (calls before)).2]
  exact (Ledger.forget_call _ x.call).1

theorem calls_append (before later : List (Step rs)) : calls (before ++ later) = calls before ++ calls later :=
  List.map_append

theorem after_append_cons (grace : Duration) (before : List (Step rs)) (x : Step rs) (later : List (Step rs)) :
    Ledger.after grace (calls (before ++ x :: later)) =
      (((Ledger.after grace (calls before)).call x.call).2.run (calls later)).2 := by
  rw [calls_append, Ledger.after_append]
  rfl

/-- Where the signals about a rename stand among all steps. -/
structure Course (rs : Renames ι) (i : ι) where
  before : List (Step rs)
  departure : Tree × Instant
  /-- Between departure and arrival. -/
  waits : List (Step rs)
  arrival : Tree × Instant
  /-- Between arrival and the signal about both sides. -/
  between : List (Step rs)
  both : Tree × Instant
  later : List (Step rs)

namespace Course

variable {i : ι} (c : Course rs i)

def departs : Step rs := .departs i c.departure.1 c.departure.2

def arrives : Step rs := .arrives i c.arrival.1 c.arrival.2

def endsWith : Step rs := .both i c.both.1 c.both.2

def untilArrival : List (Step rs) := c.before ++ c.departs :: c.waits

def untilBoth : List (Step rs) := c.untilArrival ++ c.arrives :: c.between

def steps : List (Step rs) := c.untilBoth ++ c.endsWith :: c.later

/-- The number of the departure. -/
def number : Nat := (departures (calls c.before)).length

theorem steps_eq_arrives : c.steps = c.untilArrival ++ c.arrives :: (c.between ++ c.endsWith :: c.later) := by
  rw [steps, untilBoth, List.append_assoc, List.cons_append]

theorem steps_eq_departs : c.steps =
    c.before ++ c.departs :: (c.waits ++ c.arrives :: (c.between ++ c.endsWith :: c.later)) := by
  rw [steps_eq_arrives, untilArrival, List.append_assoc, List.cons_append]

end Course

/-! ## The order of the steps -/

/-- What is said of a rename after one of its sides. -/
def following : Signal.Side → List Signal.Side
  | .departed => [.arrived, .both]
  | .arrived => [.both]
  | .both | .unknown => []

theorem eq_following {side : Signal.Side} {later : List Signal.Side}
    (h : side :: later <:+ [.departed, .arrived, .both]) : later = following side := by
  simp only [List.suffix_cons_iff, List.cons.injEq, List.suffix_nil, reduceCtorEq, or_false] at h
  rcases h with ⟨rfl, rfl⟩ | ⟨rfl, rfl⟩ | ⟨rfl, rfl⟩ <;> rfl

variable [DecidableEq ι]

/-- What the step says of the rename. -/
def Step.side? (i : ι) : Step rs → Option Signal.Side
  | .departs j _ _ => if j = i then some .departed else none
  | .arrives j _ _ => if j = i then some .arrived else none
  | .both j _ _ => if j = i then some .both else none
  | _ => none

theorem Step.side?_departed {i : ι} {x : Step rs} :
    x.side? i = some .departed ↔ ∃ t now, x = .departs i t now := by
  cases x <;> simp [side?]

theorem Step.side?_arrived {i : ι} {x : Step rs} :
    x.side? i = some .arrived ↔ ∃ t now, x = .arrives i t now := by
  cases x <;> simp [side?]

theorem Step.side?_both {i : ι} {x : Step rs} : x.side? i = some .both ↔ ∃ t now, x = .both i t now := by
  cases x <;> simp [side?]

theorem Step.side?_ne_unknown {i : ι} {x : Step rs} : x.side? i ≠ some .unknown := by
  cases x <;> simp [side?]

/-- What is said of the rename, in this order. -/
def sides (i : ι) (steps : List (Step rs)) : List Signal.Side := steps.filterMap (Step.side? i)

/-- How many paths arrive before both sides of the rename are signalled together. -/
def upcoming (i : ι) : List (Step rs) → Nat
  | [] => 0
  | x :: rest => if x.side? i = some .both then 0 else x.arriving + upcoming i rest

/-- Few enough paths arrive between each rename's arrival and the signal about both its sides that its being
reported is remembered. -/
def Few (steps : List (Step rs)) : Prop :=
  ∀ i before t now later, steps = before ++ .arrives i t now :: later → upcoming i later < Pairing.memory

/-- Each rename is signalled by its departure, its arrival and both, in this order. -/
structure Interleaves (steps : List (Step rs)) : Prop where
  ordered : ∀ i, sides i steps = [.departed, .arrived, .both]
  few : Few steps

theorem Few.tail {x : Step rs} {steps : List (Step rs)} (h : Few (x :: steps)) : Few steps := by
  rintro i before t now later rfl
  exact h i (x :: before) t now later rfl

theorem sides_cons_of_ne {i : ι} {x : Step rs} (h : x.side? i = none) (steps : List (Step rs)) :
    sides i (x :: steps) = sides i steps := List.filterMap_cons_none h

theorem sides_cons {i : ι} {x : Step rs} {side : Signal.Side} (h : x.side? i = some side)
    (steps : List (Step rs)) : sides i (x :: steps) = side :: sides i steps := List.filterMap_cons_some h

theorem upcoming_cons {i : ι} {x : Step rs} (h : x.side? i ≠ some .both) (steps : List (Step rs)) :
    upcoming i (x :: steps) = x.arriving + upcoming i steps := if_neg h

theorem upcoming_le (i : ι) (steps : List (Step rs)) : upcoming i steps ≤ arrivals steps := by
  induction steps with
  | nil => exact Nat.le_refl 0
  | cons x rest ih =>
    rw [upcoming, arrivals]
    split
    · exact Nat.zero_le _
    · exact Nat.add_le_add_left ih _

/-- Few paths arrive between two signals if few arrive at all. -/
theorem few_of_arrivals {steps : List (Step rs)} (short : arrivals steps < Pairing.memory) : Few steps := by
  rintro i before t now later rfl
  have fewer := upcoming_le i later
  rw [arrivals_append, arrivals] at short
  omega

theorem Interleaves.course {steps : List (Step rs)} (h : Interleaves steps) (i : ι) :
    ∃ c : Course rs i, c.steps = steps ∧ ∀ x ∈ c.waits, x.side? i = none := by
  obtain ⟨before, x, fromDeparture, split, -, said, ordered⟩ := List.filterMap_eq_cons_iff.mp (h.ordered i)
  obtain ⟨t, since, rfl⟩ := Step.side?_departed.mp said
  obtain ⟨waits, y, fromArrival, split', others, said', ordered'⟩ := List.filterMap_eq_cons_iff.mp ordered
  obtain ⟨t', now, rfl⟩ := Step.side?_arrived.mp said'
  obtain ⟨between, z, later, split'', -, said'', -⟩ := List.filterMap_eq_cons_iff.mp ordered'
  obtain ⟨t'', now', rfl⟩ := Step.side?_both.mp said''
  refine ⟨⟨before, (t, since), waits, (t', now), between, (t'', now'), later⟩, ?_, others⟩
  rw [Course.steps_eq_departs, split, split', split'']
  rfl

end Renames
end StyleFeed
