import StyleFeed.Delivery
import StyleFeed.Fallible
import StyleFeed.Proofs.Conservation

/-!
The turns of the loop that delivers events, when its times do not go back and it wakes up for a deadline only at
the deadline or after it. `Delivery.neither_spins_nor_starves`: each turn delivers what has been held for the grace
time, then what it woke up for, then the rescan if that is due, which is an interval after the last one; a turn for
a deadline delivers something. The loop goes on until its source is closed.
-/

namespace StyleFeed

/-- The loop wakes up: what for, when, and what the tree is then. -/
structure Wake where
  tree : Tree
  received : Received
  now : Instant

/-- What a wake-up brings, for what waits by then. -/
def Wake.convert (w : Wake) (p : Pairing) : List Event × Pairing :=
  match w.received with
  | .signal s => p.convert w.tree s w.now
  | .fault _ | .timeout | .closed => ([], p)

/-- A turn that the loop went through. -/
structure Turn where
  before : Delivery
  wake : Wake
  events : List Event
  after : Delivery

namespace Turn

def grace (x : Turn) : Duration := x.before.pairing.grace

/-- What has been held for the grace time, in the order of departure. -/
def lapsed (x : Turn) : List Held := x.before.pairing.held.filter (·.since + x.grace ≤ x.wake.now)

def waiting (x : Turn) : Pairing :=
  { x.before.pairing with held := x.before.pairing.held.filter (¬ ·.since + x.grace ≤ x.wake.now) }

def expired (x : Turn) : List Event := x.lapsed.map (.change <| .deleted ·.path)

def converted (x : Turn) : List Event := (x.wake.convert x.waiting).1

/-- What is delivered after that. -/
def rescan (x : Turn) : List Event := x.events.drop (x.expired ++ x.converted).length

/-- The loop goes through the turn. -/
def Taken (x : Turn) : Prop :=
  x.before.turn x.wake.tree x.wake.received x.wake.now = .ok (x.events, x.after)

end Turn

/-- When the turns delivered a rescan of their own. -/
def rescanTimes (turns : List Turn) : List Instant :=
  (turns.filter (·.rescan ≠ [])).map (·.wake.now)

/-- The last of these times, or the one at which the loop began. -/
def lastRescan (begun : Instant) (turns : List Turn) : Instant :=
  (rescanTimes turns).getLastD begun

/-- The clock can show the times that the schedule needs. -/
def Schedule.Shown (s : Schedule) (now : Instant) : Prop :=
  Clock.Shows (now + s.grace) ∧ ∀ every ∈ s.rescanEvery, Clock.Shows (now + every)

instance (s : Schedule) (now : Instant) : Decidable (s.Shown now) := inferInstanceAs (Decidable (_ ∧ _))

theorem Clock.Shows.of_le {a b : Instant} (shows : Shows b) (h : a ≤ b) : Shows a :=
  Nat.lt_of_le_of_lt (Nat.div_le_div_right h) shows

theorem rescanTimes_of_nil {x : Turn} (none : x.rescan = []) (turns : List Turn) :
    rescanTimes (x :: turns) = rescanTimes turns := by
  simp [rescanTimes, none]

theorem rescanTimes_of_ne_nil {x : Turn} (some : x.rescan ≠ []) (turns : List Turn) :
    rescanTimes (x :: turns) = x.wake.now :: rescanTimes turns := by
  simp [rescanTimes, some]

theorem lastRescan_of_nil {x : Turn} (none : x.rescan = []) {begun : Instant} : lastRescan begun [x] = begun := by
  rw [lastRescan, rescanTimes_of_nil none]
  rfl

theorem lastRescan_of_ne_nil {x : Turn} (some : x.rescan ≠ []) {begun : Instant} :
    lastRescan begun [x] = x.wake.now := by
  rw [lastRescan, rescanTimes_of_ne_nil some]
  rfl

theorem lastRescan_cons (begun : Instant) (x : Turn) (turns : List Turn) :
    lastRescan begun (x :: turns) = lastRescan (lastRescan begun [x]) turns := by
  by_cases none : x.rescan = []
  · rw [lastRescan_of_nil none, lastRescan, rescanTimes_of_nil none]
    rfl
  · rw [lastRescan_of_ne_nil none, lastRescan, rescanTimes_of_ne_nil none]
    exact List.getLastD_cons ..

namespace Pairing

/-- All that is held is held since a time that has been. -/
def HeldBy (now : Instant) (p : Pairing) : Prop := ∀ h ∈ p.held, h.since ≤ now

theorem HeldBy.mono {p : Pairing} {earlier now : Instant} (held : p.HeldBy earlier) (le : earlier ≤ now) :
    p.HeldBy now := by
  intro h mem
  exact Nat.le_trans (held h mem) le

/-- What has been held for the grace time has its deadline behind it. -/
theorem HeldBy.due_iff {p : Pairing} {now : Instant} (held : p.HeldBy now) {h : Held} (mem : h ∈ p.held) :
    p.Due now h ↔ h.since + p.grace ≤ now := Nat.le_sub_iff_add_le' (held h mem)

theorem HeldBy.convert {p : Pairing} {now : Instant} (held : p.HeldBy now) (t : Tree) (s : Signal) :
    (p.convert t s now).2.HeldBy now := by
  intro h mem
  rcases List.mem_append.mp ((p.held_call (.signal t s now)).2.mem mem) with mem | departs
  · exact held h mem
  · exact Nat.le_of_eq (Call.since_of_mem_departs departs)

end Pairing

namespace Wake

theorem grace_convert (w : Wake) (p : Pairing) : (w.convert p).2.grace = p.grace := by
  obtain ⟨t, r, now⟩ := w
  cases r with
  | signal s => exact (p.held_call (.signal t s now)).1
  | fault f => rfl
  | timeout => rfl
  | closed => rfl

theorem heldBy_convert (w : Wake) {p : Pairing} (held : p.HeldBy w.now) : (w.convert p).2.HeldBy w.now := by
  obtain ⟨t, r, now⟩ := w
  cases r with
  | signal s => exact held.convert t s
  | fault f => exact held
  | timeout => exact held
  | closed => exact held

end Wake

namespace Delivery

/-- The turns of a loop that wakes up like this, up to the one that halts it. -/
def turns : Delivery → List Wake → List Turn
  | _, [] => []
  | d, w :: rest =>
    match d.turn w.tree w.received w.now with
    | .ok (events, after) => ⟨d, w, events, after⟩ :: turns after rest
    | .error _ => []

/-- The turns are what is run. -/
theorem run_eq_turns (t : Tree) (d : Delivery) (received : List (Received × Instant)) :
    d.run t received = (d.turns (received.map fun (r, now) => ⟨t, r, now⟩)).flatMap (·.events) := by
  induction received generalizing d with
  | nil => rfl
  | cons x rest ih =>
    obtain ⟨r, now⟩ := x
    simp only [run, turns, List.map_cons]
    cases d.turn t r now with
    | error halt => rfl
    | ok result => exact congrArg (result.1 ++ ·) (ih result.2)

/-! ## One turn -/

theorem timeAfter_eq_ok_iff {now time : Instant} {d : Duration} :
    timeAfter now d = .ok time ↔ Clock.Shows (now + d) ∧ time = now + d := by
  unfold timeAfter Clock.after?
  by_cases shows : Clock.Shows (now + d)
  · simp [shows, eq_comm]
  · simp [shows]

/-- While the clock can show such times, all that is held has a deadline. -/
theorem mapM_timeAfter {p : Pairing} {now : Instant} (held : p.HeldBy now) (shows : Clock.Shows (now + p.grace)) :
    p.held.mapM (fun h => timeAfter h.since p.grace) = .ok (p.held.map (·.since + p.grace)) := by
  apply mapM_eq_ok
  intro h mem
  rw [timeAfter_eq_ok_iff]
  exact ⟨shows.of_le (Nat.add_le_add_right (held h mem) _), rfl⟩

theorem eq_of_deadline? {d : Delivery} {due : Option Instant} (h : d.deadline? = .ok due) :
    due = (d.pairing.held.map (·.since + d.pairing.grace) ++ d.nextRescan.toList).min? := by
  obtain ⟨expiries, found, h⟩ := exists_of_bind_eq_ok h
  cases h
  rw [eq_map_of_mapM (fun h time found => (timeAfter_eq_ok_iff.mp found).2) found]

/-- A rescan is delivered when it is due, and the next one is due an interval later. -/
theorem periodic_cases {d : Delivery} {now : Instant} {rescan : List Event} {next : Option Instant}
    (h : d.periodic now = .ok (rescan, next)) :
    (∃ due every, d.nextRescan = some due ∧ d.schedule.rescanEvery = some every ∧ due ≤ now ∧
        rescan = [.rescan] ∧ next = some (now + every)) ∨
      (rescan = [] ∧ next = d.nextRescan ∧
        ∀ due ∈ d.nextRescan, ∀ every ∈ d.schedule.rescanEvery, now < due) := by
  unfold periodic at h
  split at h
  · rename_i due every next? every?
    split at h
    · rename_i le
      obtain ⟨time, found, h⟩ := exists_of_bind_eq_ok h
      cases h
      exact .inl ⟨due, every, next?, every?, le, rfl, congrArg some (timeAfter_eq_ok_iff.mp found).2⟩
    · rename_i early
      cases h
      refine .inr ⟨rfl, next?.symm, ?_⟩
      intro time mem _ _
      rw [next?] at mem
      cases mem
      exact Nat.lt_of_not_le early
  · rename_i lacking
    cases h
    refine .inr ⟨rfl, rfl, ?_⟩
    intro due mem every mem'
    exact absurd mem' (lacking due every mem)

theorem turn_eq {w : Wake} (isOpen : w.received ≠ .closed) (d : Delivery) :
    d.turn w.tree w.received w.now = do
      let _ ← d.deadline?
      let (rescan, nextRescan) ← d.periodic w.now
      let (expired, p) := d.pairing.expire w.now
      let (converted, p) := w.convert p
      return (expired ++ converted ++ rescan, { d with pairing := p, nextRescan }) := by
  obtain ⟨t, r, now⟩ := w
  cases r with
  | closed => exact absurd rfl isOpen
  | signal s => rfl
  | fault f => rfl
  | timeout => rfl

/-- Once its source is closed the loop delivers nothing more, not even what has expired. -/
theorem turn_closed (t : Tree) (d : Delivery) (now : Instant) (x : List Event × Delivery) :
    d.turn t .closed now ≠ .ok x := by
  intro h
  obtain ⟨due, -, h⟩ := exists_of_bind_eq_ok h
  cases h

theorem turns_of_taken {x : Turn} (taken : x.Taken) (rest : List Wake) :
    x.before.turns (x.wake :: rest) = x :: x.after.turns rest := by
  rw [Turn.Taken] at taken
  rw [turns, taken]

/-- The first wake-up is gone through, or it halts the loop. -/
theorem turns_cases (d : Delivery) (w : Wake) :
    (∃ x : Turn, x.before = d ∧ x.wake = w ∧ x.Taken) ∨ ∀ rest, d.turns (w :: rest) = [] := by
  cases found : d.turn w.tree w.received w.now with
  | ok result => exact .inl ⟨⟨d, w, result.1, result.2⟩, rfl, rfl, found⟩
  | error halt =>
    refine .inr fun rest => ?_
    rw [turns, found]

theorem turns_of_closed (d : Delivery) (earlier later : List Wake) {w : Wake} (closed : w.received = .closed) :
    d.turns (earlier ++ w :: later) = d.turns earlier := by
  induction earlier generalizing d with
  | nil =>
    simp only [List.nil_append, turns, closed]
    split
    · rename_i found
      exact absurd found (turn_closed w.tree d w.now _)
    · rfl
  | cons first rest ih =>
    rw [List.cons_append, turns, turns]
    split
    · rw [ih]
    · rfl

/-- The loop is at a time, an interval after which a rescan is due. -/
structure Paced (s : Schedule) (last now : Instant) (d : Delivery) : Prop where
  schedule : d.schedule = s
  grace : d.pairing.grace = s.grace
  next : d.nextRescan = s.rescanEvery.map (last + ·)
  held : d.pairing.HeldBy now

theorem paced_start {s : Schedule} {begun : Instant} {d : Delivery} (h : start s begun = .ok d) :
    d.Paced s begun begun := by
  obtain ⟨next, found, h⟩ := exists_of_bind_eq_ok h
  cases h
  refine ⟨rfl, rfl, ?_, fun h mem => nomatch mem⟩
  cases every : s.rescanEvery with
  | none => rw [every] at found; cases found; rfl
  | some interval =>
    rw [every] at found
    obtain ⟨time, shown, found⟩ := exists_of_bind_eq_ok found
    cases found
    exact congrArg some (timeAfter_eq_ok_iff.mp shown).2

theorem expire_eq (x : Turn) (held : x.before.pairing.HeldBy x.wake.now) :
    x.before.pairing.expire x.wake.now = (x.expired, x.waiting) := by
  have lapsed : x.before.pairing.held.filter (x.before.pairing.Due x.wake.now ·) = x.lapsed :=
    List.filter_congr fun h mem => decide_eq_decide.mpr (held.due_iff mem)
  have waiting : x.before.pairing.held.filter (¬ x.before.pairing.Due x.wake.now ·) = x.waiting.held :=
    List.filter_congr fun h mem => decide_eq_decide.mpr (not_congr (held.due_iff mem))
  rw [Pairing.expire_eq_filter, lapsed, waiting]
  rfl

/-- What a turn delivers, and when the next rescan is due after it. -/
theorem Paced.of_taken {s : Schedule} {last earlier : Instant} {x : Turn} (paced : x.before.Paced s last earlier)
    (le : earlier ≤ x.wake.now) (taken : x.Taken) :
    x.wake.received ≠ .closed ∧ x.events = x.expired ++ x.converted ++ x.rescan ∧
      ((x.rescan = [.rescan] ∧ ∃ every ∈ s.rescanEvery, last + every ≤ x.wake.now) ∨
        (x.rescan = [] ∧ ∀ every ∈ s.rescanEvery, x.wake.now < last + every)) ∧
      x.after.Paced s (lastRescan last [x]) x.wake.now := by
  have isOpen : x.wake.received ≠ .closed := by
    intro closed
    rw [Turn.Taken, closed] at taken
    exact turn_closed _ _ _ _ taken
  have held := paced.held.mono le
  rw [Turn.Taken, turn_eq isOpen] at taken
  obtain ⟨due, -, taken⟩ := exists_of_bind_eq_ok taken
  obtain ⟨⟨rescan, next⟩, found, taken⟩ := exists_of_bind_eq_ok taken
  rw [expire_eq x held] at taken
  obtain ⟨events, after⟩ := Prod.mk.inj (Except.ok.inj taken)
  have own : x.rescan = rescan := by
    rw [Turn.rescan, ← events]
    exact List.drop_left
  have delivered : x.events = x.expired ++ x.converted ++ x.rescan := by
    rw [own, ← events]
    rfl
  have paces (h : next = s.rescanEvery.map (lastRescan last [x] + ·)) :
      x.after.Paced s (lastRescan last [x]) x.wake.now := by
    rw [← after]
    refine ⟨paced.schedule, ?_, h, ?_⟩
    · exact (Wake.grace_convert ..).trans paced.grace
    · apply Wake.heldBy_convert
      intro h mem
      exact held h (List.mem_of_mem_filter mem)
  have schedule := paced.schedule
  have next' := paced.next
  refine ⟨isOpen, delivered, ?_⟩
  rcases periodic_cases found with ⟨due, every, next?, every?, le, rfl, rfl⟩ | ⟨rfl, rfl, early⟩
  · rw [schedule] at every?
    rw [next', every?] at next?
    cases next?
    -- the time it was due is forgotten: the next one is an interval after this turn, however late that was
    refine ⟨.inl ⟨own, every, every?, le⟩, paces ?_⟩
    rw [lastRescan_of_ne_nil (by simp [own]), every?]
    rfl
  · refine ⟨.inr ⟨own, ?_⟩, paces ?_⟩
    · intro every mem
      apply early (last + every) _ every (schedule ▸ mem)
      rw [next']
      exact Option.mem_map_of_mem _ mem
    · rw [lastRescan_of_nil own]
      exact next'

/-- While the clock can show the times that it needs, the loop goes on. It needs the time of another rescan only when
one is due. -/
theorem Paced.exists_turn {s : Schedule} {last earlier : Instant} {d : Delivery} {w : Wake}
    (paced : d.Paced s last earlier) (le : earlier ≤ w.now) (isOpen : w.received ≠ .closed)
    (expiries : Clock.Shows (w.now + s.grace))
    (rescans : ∀ every ∈ s.rescanEvery, last + every ≤ w.now → Clock.Shows (w.now + every)) :
    ∃ x : Turn, x.before = d ∧ x.wake = w ∧ x.Taken := by
  have due : ∃ due, d.deadline? = .ok due := by
    rw [← paced.grace] at expiries
    rw [deadline?, mapM_timeAfter (paced.held.mono le) expiries]
    exact ⟨_, rfl⟩
  have rescan : ∃ rescan, d.periodic w.now = .ok rescan := by
    unfold periodic
    split
    · rename_i next every next? every?
      rw [paced.schedule] at every?
      rw [paced.next, every?] at next?
      cases next?
      split
      · rename_i due
        rw [timeAfter_eq_ok_iff.mpr ⟨rescans every every? due, rfl⟩]
        exact ⟨_, rfl⟩
      · exact ⟨_, rfl⟩
    · exact ⟨_, rfl⟩
  obtain ⟨due, due?⟩ := due
  obtain ⟨rescan, rescan?⟩ := rescan
  have taken : ∃ result, d.turn w.tree w.received w.now = .ok result := by
    rw [turn_eq isOpen, due?, rescan?]
    exact ⟨_, rfl⟩
  obtain ⟨result, taken⟩ := taken
  exact ⟨⟨d, w, result.1, result.2⟩, rfl, rfl, taken⟩

/-! ## All turns -/

section
variable {s : Schedule} {last now : Instant} {d : Delivery} {wakes : List Wake} (paced : d.Paced s last now)
  (ordered : (now :: wakes.map (·.now)).IsChain (· ≤ ·))
include paced ordered

/-- What is known when the loop begins is known before each turn. -/
theorem Paced.before {earlier later : List Turn} {x : Turn} (split : d.turns wakes = earlier ++ x :: later) :
    x.Taken ∧ ∃ now ≤ x.wake.now, x.before.Paced s (lastRescan last earlier) now := by
  -- for all loops in step with the schedule, as the first turn may move the last rescan
  induction wakes generalizing d last now earlier with
  | nil => cases earlier <;> cases split
  | cons w rest ih =>
    obtain ⟨le, ordered⟩ := List.isChain_cons_cons.mp ordered
    rcases turns_cases d w with ⟨y, rfl, rfl, taken⟩ | none
    · rw [turns_of_taken taken] at split
      cases earlier with
      | nil =>
        cases split
        exact ⟨taken, now, le, paced⟩
      | cons first earlier =>
        obtain ⟨rfl, tail⟩ := List.cons.inj split
        have after := (paced.of_taken le taken).2.2.2
        rw [lastRescan_cons]
        exact ih after ordered tail
    · rw [none] at split
      cases earlier <;> cases split

theorem Paced.rescans_apart {every : Duration} (mem : every ∈ s.rescanEvery) :
    (last :: rescanTimes (d.turns wakes)).IsChain (· + every ≤ ·) := by
  induction wakes generalizing d last now with
  | nil => exact .singleton last
  | cons w rest ih =>
    obtain ⟨le, ordered⟩ := List.isChain_cons_cons.mp ordered
    rcases turns_cases d w with ⟨x, rfl, rfl, taken⟩ | none
    · obtain ⟨-, -, own, after⟩ := paced.of_taken le taken
      have later := ih after ordered
      rw [turns_of_taken taken]
      rcases own with ⟨own, every', mem', due⟩ | ⟨own, -⟩
      · rw [Option.mem_unique mem' mem] at due
        have some : x.rescan ≠ [] := by simp [own]
        rw [lastRescan_of_ne_nil some] at later
        rw [rescanTimes_of_ne_nil some]
        exact List.isChain_cons_cons.mpr ⟨due, later⟩
      · rw [lastRescan_of_nil own] at later
        rw [rescanTimes_of_nil own]
        exact later
    · rw [none]
      exact .singleton last

theorem Paced.map_wake_of_due (expiries : ∀ w ∈ wakes, Clock.Shows (w.now + s.grace))
    (rescans : ∀ every ∈ s.rescanEvery, ∀ w ∈ wakes, last + every ≤ w.now → Clock.Shows (w.now + every)) :
    (d.turns wakes).map (·.wake) = wakes.takeWhile (·.received ≠ .closed) := by
  induction wakes generalizing d last now with
  | nil => rfl
  | cons w rest ih =>
    obtain ⟨le, ordered⟩ := List.isChain_cons_cons.mp ordered
    obtain ⟨first, others⟩ := List.forall_mem_cons.mp expiries
    by_cases closed : w.received = .closed
    · have none : d.turns (w :: rest) = [] := d.turns_of_closed [] rest closed
      rw [none, List.takeWhile_cons_of_neg (by simp [closed])]
      rfl
    · obtain ⟨x, rfl, rfl, taken⟩ :=
        paced.exists_turn le closed first fun every mem => rescans every mem w List.mem_cons_self
      obtain ⟨-, -, own, after⟩ := paced.of_taken le taken
      have later : last ≤ lastRescan last [x] := by
        rcases own with ⟨own, every, -, due⟩ | ⟨own, -⟩
        · rw [lastRescan_of_ne_nil (by simp [own])]
          exact Nat.le_trans (Nat.le_add_right last every) due
        · exact Nat.le_of_eq (lastRescan_of_nil own).symm
      have rescans' : ∀ every ∈ s.rescanEvery, ∀ w ∈ rest,
          lastRescan last [x] + every ≤ w.now → Clock.Shows (w.now + every) := by
        intro every mem w mem' due
        exact rescans every mem w (List.mem_cons_of_mem _ mem') (Nat.le_trans (Nat.add_le_add_right later every) due)
      rw [List.takeWhile_cons_of_pos (by simp [closed]), turns_of_taken taken, List.map_cons,
        ih after ordered others rescans']

theorem Paced.map_wake (shown : ∀ w ∈ wakes, s.Shown w.now) :
    (d.turns wakes).map (·.wake) = wakes.takeWhile (·.received ≠ .closed) :=
  paced.map_wake_of_due ordered (fun w mem => (shown w mem).1) fun every mem w mem' _ => (shown w mem').2 every mem

end

/-- The loop wakes up for a deadline only when that has come. -/
def Timely (turns : List Turn) : Prop :=
  ∀ x ∈ turns, x.wake.received = .timeout → ∃ due, x.before.deadline? = .ok (some due) ∧ due ≤ x.wake.now

/-- A deadline has something to deliver. -/
theorem Paced.events_ne_nil {s : Schedule} {last earlier due : Instant} {x : Turn}
    (paced : x.before.Paced s last earlier) (le : earlier ≤ x.wake.now) (taken : x.Taken)
    (deadline : x.before.deadline? = .ok (some due)) (past : due ≤ x.wake.now) : x.events ≠ [] := by
  obtain ⟨-, events, own, -⟩ := paced.of_taken le taken
  rw [events]
  rcases List.mem_append.mp (List.min?_mem (eq_of_deadline? deadline).symm) with expiry | rescan
  · obtain ⟨h, held, rfl⟩ := List.mem_map.mp expiry
    have lapsed : h ∈ x.lapsed := List.mem_filter.mpr ⟨held, decide_eq_true past⟩
    have expired : x.expired ≠ [] := by
      intro none
      rw [List.map_eq_nil_iff.mp none] at lapsed
      cases lapsed
    simp [expired]
  · rw [Option.mem_toList, paced.next] at rescan
    obtain ⟨every, mem, rfl⟩ := Option.mem_map.mp rescan
    rcases own with ⟨own, -⟩ | ⟨-, early⟩
    · simp [own]
    · exact absurd past (Nat.not_le_of_lt (early every mem))

/-- The loop neither spins nor starves. Each turn delivers what has been held for the grace time, then what it woke
up for, and then at most a rescan, which it delivers just if an interval is over since the last one or since the
loop began; a turn for a deadline delivers something. When its source is closed the loop delivers nothing more, and
it goes on till then, unless it needs a time that the clock cannot show. -/
theorem neither_spins_nor_starves {s : Schedule} {begun : Instant} {d : Delivery} {wakes : List Wake}
    (started : start s begun = .ok d) (ordered : (begun :: wakes.map (·.now)).IsChain (· ≤ ·))
    (timely : Timely (d.turns wakes)) :
    (∀ earlier x later, d.turns wakes = earlier ++ x :: later →
      x.grace = s.grace ∧ x.events = x.expired ++ x.converted ++ x.rescan ∧
      (x.rescan = [] ∨ x.rescan = [.rescan]) ∧
      (x.rescan = [.rescan] ↔ ∃ every ∈ s.rescanEvery, lastRescan begun earlier + every ≤ x.wake.now) ∧
      (x.wake.received = .timeout → x.events ≠ [])) ∧
    (∀ every ∈ s.rescanEvery, (begun :: rescanTimes (d.turns wakes)).IsChain (· + every ≤ ·)) ∧
    (s.rescanEvery = none → rescanTimes (d.turns wakes) = []) ∧
    (∀ earlier w later, wakes = earlier ++ w :: later → w.received = .closed → d.turns wakes = d.turns earlier) ∧
    ((∀ w ∈ wakes, s.Shown w.now) →
      (d.turns wakes).map (·.wake) = wakes.takeWhile (·.received ≠ .closed)) := by
  have paced := paced_start started
  have each {earlier x later} (split : d.turns wakes = earlier ++ x :: later) := paced.before ordered split
  refine ⟨?_, fun every mem => paced.rescans_apart ordered mem, ?_, ?_, paced.map_wake ordered⟩
  · intro earlier x later split
    obtain ⟨taken, now, le, before⟩ := each split
    obtain ⟨-, events, own, -⟩ := before.of_taken le taken
    refine ⟨before.grace, events, ?_, ?_, ?_⟩
    · rcases own with ⟨own, -⟩ | ⟨own, -⟩
      · exact .inr own
      · exact .inl own
    · rcases own with ⟨own, due⟩ | ⟨own, early⟩
      · exact iff_of_true own due
      · refine iff_of_false (by simp [own]) ?_
        intro ⟨every, mem, due⟩
        exact Nat.not_le_of_lt (early every mem) due
    · intro timeout
      obtain ⟨due, deadline, past⟩ := timely x (by simp [split]) timeout
      exact before.events_ne_nil le taken deadline past
  · intro none
    rw [rescanTimes, List.map_eq_nil_iff, List.filter_eq_nil_iff]
    intro x mem
    obtain ⟨earlier, later, split⟩ := List.append_of_mem mem
    obtain ⟨taken, now, le, before⟩ := each split
    rcases (before.of_taken le taken).2.2.1 with ⟨-, every, mem, -⟩ | ⟨own, -⟩
    · rw [none] at mem
      cases mem
    · simp [own]
  · intro earlier w later split closed
    rw [split]
    exact d.turns_of_closed earlier later closed

/-! A path departs and comes back nowhere, and two rescans come due, one with another event and one alone. -/
namespace TwoRescans

def schedule : Schedule := ⟨50, some 100⟩

def delivery : Delivery := ⟨schedule, .start 50, some 100⟩

def t : Tree := .empty []

def departure : Signal := ⟨.rename .departed, [lettered 1], none, false⟩

def creation : Signal := ⟨.create, [lettered 2], none, false⟩

def wakes : List Wake :=
  [⟨t, .signal departure, 10⟩, ⟨t, .timeout, 60⟩, ⟨t, .signal creation, 130⟩, ⟨t, .timeout, 230⟩, ⟨t, .closed, 300⟩,
    ⟨t, .signal creation, 310⟩]

theorem timely : Timely (delivery.turns wakes) := by
  have due : ∀ x ∈ delivery.turns wakes, x.wake.received = .timeout →
      x.before.deadline? = .ok (some 60) ∧ 60 ≤ x.wake.now ∨
        x.before.deadline? = .ok (some 230) ∧ 230 ≤ x.wake.now := by decide
  intro x mem timeout
  rcases due x mem timeout with due | due
  · exact ⟨60, due⟩
  · exact ⟨230, due⟩

theorem rescans_in_time : start schedule 0 = .ok delivery ∧ (0 :: wakes.map (·.now)).IsChain (· ≤ ·) ∧
    Timely (delivery.turns wakes) ∧
    (delivery.turns wakes).map (·.events) =
      [[], [.change (.deleted (lettered 1))], [.change (.created (lettered 2)), .rescan], [.rescan]] ∧
    (0 :: rescanTimes (delivery.turns wakes)).IsChain (· + 100 ≤ ·) ∧
    (delivery.turns wakes).map (·.wake) = wakes.take 4 := by
  have started : start schedule 0 = .ok delivery := by decide
  have ordered : (0 :: wakes.map (·.now)).IsChain (· ≤ ·) := by decide
  obtain ⟨-, apart, -, -, all⟩ := neither_spins_nor_starves started ordered timely
  refine ⟨started, ordered, timely, by decide, apart 100 rfl, ?_⟩
  rw [all (by decide)]
  rfl

end TwoRescans

end Delivery
end StyleFeed
