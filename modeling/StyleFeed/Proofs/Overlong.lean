import StyleFeed.Proofs.Settings
import StyleFeed.Proofs.Turns
import StyleFeed.Proofs.Width

/-!
Whether the clock can show the times that a tuning needs: `Tuning.overflows_at_start`. A file gives whole numbers of
64 bits. So the grace time is far too short to overflow, being in milliseconds, and an interval that is nearly as long
as the clock runs overflows at once and not later: a rescan is due only when an interval is over.
-/

namespace StyleFeed

namespace Clock

theorem shows_add_seconds_iff (now : Instant) (n : Nat) :
    Shows (now + seconds n) ↔ now / second + n < 0x8000000000000000 := by
  rw [Shows, seconds, Nat.add_mul_div_right now n (by decide)]

/-- For its first 2 ^ 40 seconds the clock can show any time that is given in milliseconds of 63 bits. -/
theorem shows_add {since d : Nat} (early : since < seconds (2 ^ 40)) (short : d ≤ milliseconds 0x8000000000000000) :
    Shows (since + d) := by
  simp only [seconds, milliseconds, second, millisecond] at early short
  rw [Shows, second, Nat.div_lt_iff_lt_mul (by decide)]
  omega

end Clock

/-- A delivery begins if the clock can show when the first rescan is due. -/
theorem Delivery.start_eq (s : Schedule) (now : Instant) :
    start s now = if ∀ every ∈ s.rescanEvery, Clock.Shows (now + every)
      then .ok ⟨s, .start s.grace, s.rescanEvery.map (now + ·)⟩ else .error .beyondClock := by
  obtain ⟨grace, none | every⟩ := s
  · rfl
  · by_cases shown : Clock.Shows (now + every)
    · simp [start, timeAfter, Clock.after?, shown]
    · simp [start, timeAfter, Clock.after?, shown]

namespace Tuning

/-! ## What a file can set -/

/-- The numbers have 63 bits. -/
structure Narrow (u : Tuning) : Prop where
  rescanSeconds : ∀ n ∈ u.rescanSeconds, n < 0x8000000000000000
  graceMilliseconds : ∀ n ∈ u.graceMilliseconds, n < 0x8000000000000000

theorem lt_of_setting {es : Toml.Entries} {key : String} {value : Option Nat} (fit : es.Fit)
    (h : setting es key = some value) : ∀ n ∈ value, n < 0x8000000000000000 := by
  rintro n rfl
  unfold setting at h
  split at h
  · cases h
  · rename_i m found
    split at h
    · cases h
      have fits := (fit.of_lookup found m rfl).2
      omega
    · cases h
  · cases h

theorem narrow_ofText? {text : String} {u : Tuning} (h : ofText? text = some u) : u.Narrow := by
  obtain ⟨es, parsed, h⟩ := Option.bind_eq_some_iff.mp h
  obtain ⟨interval, first, h⟩ := Option.bind_eq_some_iff.mp h
  obtain ⟨grace, second, h⟩ := Option.bind_eq_some_iff.mp h
  cases h
  have fit := Toml.fits_of_parse parsed
  exact ⟨lt_of_setting fit first, lt_of_setting fit second⟩

theorem narrow_load (t : Tree) (root : Path) : (load t root).Narrow := by
  have narrow_unset : unset.Narrow := ⟨nofun, nofun⟩
  unfold load
  split
  · rename_i text _
    cases h : ofText? text with
    | none => exact narrow_unset
    | some u => exact narrow_ofText? h
  · exact narrow_unset

/-! ## What the clock can show -/

section
variable {u : Tuning}

theorem Narrow.shows_grace (h : u.Narrow) {since : Instant} (early : since < Clock.seconds (2 ^ 40)) :
    Clock.Shows (since + u.grace) := by
  have short : u.graceMilliseconds.getD defaultGraceMilliseconds ≤ 0x8000000000000000 := by
    cases set : u.graceMilliseconds with
    | none => decide
    | some n => exact Nat.le_of_lt (h.graceMilliseconds n set)
  exact Clock.shows_add early (Nat.mul_le_mul_right _ short)

/-- An interval that overflows the clock at once. -/
def Overlong (u : Tuning) (now : Instant) : Prop :=
  ∃ n ∈ u.rescanSeconds, 0x8000000000000000 ≤ now / Clock.second + n

theorem mem_rescanEvery_iff {every : Duration} :
    every ∈ u.rescanEvery ↔ ∃ n ∈ u.rescanSeconds, 0 < n ∧ Clock.seconds n = every := by
  constructor
  · intro mem
    obtain ⟨n, kept, rfl⟩ := Option.mem_map.mp mem
    obtain ⟨set, positive⟩ := Option.filter_eq_some_iff.mp kept
    exact ⟨n, set, of_decide_eq_true positive, rfl⟩
  · rintro ⟨n, set, positive, rfl⟩
    exact Option.mem_map_of_mem _ (Option.filter_eq_some_iff.mpr ⟨set, decide_eq_true positive⟩)

theorem shows_rescans_iff {now : Instant} (early : now < Clock.seconds (2 ^ 40)) :
    (∀ every ∈ u.rescanEvery, Clock.Shows (now + every)) ↔ ¬ u.Overlong now := by
  constructor
  · rintro shows ⟨n, set, overflows⟩
    have positive : 0 < n := by
      refine Nat.pos_of_ne_zero ?_
      rintro rfl
      have young : now / Clock.second < 2 ^ 40 := (Nat.div_lt_iff_lt_mul (by decide)).mpr early
      exact absurd (Nat.lt_of_le_of_lt overflows young) (by decide)
    have shown := shows _ (mem_rescanEvery_iff.mpr ⟨n, set, positive, rfl⟩)
    rw [Clock.shows_add_seconds_iff] at shown
    exact absurd overflows (Nat.not_le_of_lt shown)
  · intro short every mem
    obtain ⟨n, set, -, rfl⟩ := mem_rescanEvery_iff.mp mem
    rw [Clock.shows_add_seconds_iff]
    by_contra overflows
    exact short ⟨n, set, Nat.le_of_not_lt overflows⟩

end

/-- Once it has begun, the delivery needs the time of another rescan only when an interval is over, and so never one
that the clock cannot show. -/
theorem shows_of_due {now begun : Instant} {every : Duration} (due : begun + every ≤ now)
    (early : now < Clock.seconds (2 ^ 40)) : Clock.Shows (now + every) := by
  have le : every ≤ now := Nat.le_trans (Nat.le_add_left every begun) due
  have short : every < Clock.seconds (2 ^ 40) := Nat.lt_of_le_of_lt le early
  exact Clock.shows_add early (Nat.le_trans (Nat.le_of_lt short) (by decide))

/-- Where a tuning makes the clock overflow. A file gives numbers of 63 bits, and with these the grace time never
overflows. The interval does just if the clock cannot show it from the beginning: then the delivery does not begin.
A delivery that has begun goes on until its source is closed. -/
theorem overflows_at_start (t : Tree) (root : Path) {begun : Instant} (early : begun < Clock.seconds (2 ^ 40)) :
    let u := load t root
    (∀ n ∈ u.rescanSeconds, n < 0x8000000000000000) ∧
    (∀ since ≤ begun, Clock.Shows (since + u.grace)) ∧
    ((∀ every ∈ u.rescanEvery, Clock.Shows (begun + every)) ↔ ¬ u.Overlong begun) ∧
    (u.Overlong begun → Delivery.start u.schedule begun = .error .beyondClock) ∧
    (¬ u.Overlong begun → ∃ d, Delivery.start u.schedule begun = .ok d ∧
      ∀ wakes : List Wake, (begun :: wakes.map (·.now)).IsChain (· ≤ ·) →
        (∀ w ∈ wakes, w.now < Clock.seconds (2 ^ 40)) →
        (d.turns wakes).map (·.wake) = wakes.takeWhile (·.received ≠ .closed)) := by
  intro u
  have narrow : u.Narrow := narrow_load t root
  have starts := Delivery.start_eq u.schedule begun
  have shows : (∀ every ∈ u.schedule.rescanEvery, Clock.Shows (begun + every)) ↔ ¬ u.Overlong begun :=
    shows_rescans_iff early
  refine ⟨narrow.rescanSeconds, ?_, shows, ?_, ?_⟩
  · intro since le
    exact narrow.shows_grace (Nat.lt_of_le_of_lt le early)
  · intro overlong
    rw [starts]
    exact if_neg fun shown => shows.mp shown overlong
  · intro short
    rw [if_pos (shows.mpr short)] at starts
    refine ⟨_, starts, fun wakes ordered young => ?_⟩
    have paced := Delivery.paced_start starts
    apply paced.map_wake_of_due ordered
    · intro w mem
      exact narrow.shows_grace (young w mem)
    · intro every _ w mem due
      exact shows_of_due due (young w mem)

/-! A file gives the longest interval that it can, and the clock has run for a second or not at all. -/
namespace Sample

def longest : Int := 0x7fffffffffffffff

theorem load_longest : load (tree longest 20) root = ⟨some 0x7fffffffffffffff, some 20⟩ := by
  have text : (tree longest 20).readText (root.join file) = .ok ("\n".intercalate (lines longest 20)) := by
    simp only [Tree.readText, read_tree, ok_bind, Utf8.decode?_encode]
  simp only [load, text, ofText?_spells (spells_lines longest 20) (.swap ..)]
  rfl

theorem longest_overflows : Clock.seconds 1 < Clock.seconds (2 ^ 40) ∧
    ¬ (∀ every ∈ (load (tree longest 20) root).rescanEvery, Clock.Shows (Clock.seconds 1 + every)) ∧
    Delivery.start (load (tree longest 20) root).schedule (Clock.seconds 1) = .error .beyondClock := by
  rw [load_longest]
  decide

def wakes : List Wake := [⟨tree longest 20, .timeout, Clock.seconds 1⟩, ⟨tree longest 20, .closed, Clock.seconds 2⟩]

theorem longest_at_start : 0 < Clock.seconds (2 ^ 40) ∧
    (∀ every ∈ (load (tree longest 20) root).rescanEvery, Clock.Shows (0 + every)) ∧
    (∃ d, Delivery.start (load (tree longest 20) root).schedule 0 = .ok d ∧
      (d.turns wakes).map (·.wake) = wakes.take 1) ∧
    Clock.seconds 1 < Clock.seconds (2 ^ 40) ∧
    Delivery.start (load (tree longest 20) root).schedule (Clock.seconds 1) = .error .beyondClock := by
  have short : ¬ (load (tree longest 20) root).Overlong 0 := by
    rw [load_longest]
    rintro ⟨n, ⟨⟩, overflows⟩
    exact absurd overflows (by decide)
  have overlong : (load (tree longest 20) root).Overlong (Clock.seconds 1) := by
    rw [load_longest]
    exact ⟨_, rfl, by decide⟩
  have young : 0 < Clock.seconds (2 ^ 40) := by decide
  have early : Clock.seconds 1 < Clock.seconds (2 ^ 40) := by decide
  obtain ⟨-, -, shows, -, goesOn⟩ := overflows_at_start (tree longest 20) root young
  obtain ⟨-, -, -, overflows, -⟩ := overflows_at_start (tree longest 20) root early
  obtain ⟨d, started, all⟩ := goesOn short
  exact ⟨young, shows.mpr short, ⟨d, started, all wakes (by decide) (by decide)⟩, early, overflows overlong⟩

end Sample
end Tuning
end StyleFeed
