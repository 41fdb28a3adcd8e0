import StyleFeed.Proofs.Conservation

/-!
What a call does to the memory of settled renames: `Pairing.settled_call`. A signal about both sides of a rename that is
remembered takes that from the memory and is not reported; any other call adds the renames that its reports settle.
-/

namespace StyleFeed

/-- The rename that the report of an arrival under the tracker settles. -/
def Event.settled? (tracker : Option Nat) : Event → Option Settled
  | .change (.moved src dest) => some (.paired src dest)
  | .change (.created dest) => tracker.map (.arrived · dest)
  | _ => none

/-- The signal is about both sides of the rename that was settled. -/
def Call.repeats : Call → Settled → Bool
  | .signal _ ⟨_, [src, dest], tracker, _⟩ _ => Settled.covers src dest tracker
  | _ => fun _ => false

theorem Call.repeats_of_paths {t : Tree} {s : Signal} {now : Instant} {src dest : Path}
    (paths : s.paths = [src, dest]) : (Call.signal t s now).repeats = Settled.covers src dest s.tracker := by
  obtain ⟨kind, _, tracker, lossy⟩ := s
  cases paths
  rfl

namespace Pairing

theorem map_push {α β : Type} (f : α → β) (queue : List α) (x : α) :
    (push queue x).map f = push (queue.map f) (f x) := by
  unfold push
  rw [List.length_map]
  split <;> simp

theorem length_push_le {α : Type} {queue : List α} (bounded : queue.length ≤ memory) (x : α) :
    (push queue x).length ≤ memory := by
  unfold push
  have room : memory = 64 := rfl
  split
  · simp only [List.length_append, List.length_tail, List.length_singleton]
    omega
  · simp only [List.length_append, List.length_singleton]
    omega

/-- The renames that the reports of a call settle. -/
def settles (p : Pairing) : Call → List Settled
  | .signal t s now =>
    if s.lossy = false ∧ s.kind = .rename .arrived then
      (p.convert t s now).1.filterMap (Event.settled? s.tracker)
    else []
  | .expire _ => []

/-- The call is a signal about both sides of a rename that is not reported. -/
def Swallows (p : Pairing) : Call → Prop
  | .signal t s now =>
    s.lossy = false ∧ s.kind = .rename .both ∧ s.paths.length = 2 ∧ (p.convert t s now).1 = []
  | .expire _ => False

instance (p : Pairing) : (c : Call) → Decidable (p.Swallows c)
  | .signal .. => inferInstanceAs (Decidable (_ ∧ _ ∧ _ ∧ _))
  | .expire _ => inferInstanceAs (Decidable False)

/-- All renames that are settled over some calls, in this order. -/
def settlements (p : Pairing) : List Call → List Settled
  | [] => []
  | c :: rest => p.settles c ++ (p.call c).2.settlements rest

/-- The calls that are swallowed. -/
def swallowed (p : Pairing) : List Call → List Call
  | [] => []
  | c :: rest => (if p.Swallows c then [c] else []) ++ (p.call c).2.swallowed rest

/-! ## One call -/

theorem settled_arrive (p : Pairing) (tracker : Option Nat) (dest : Path) :
    (p.arrive tracker dest).2.settled =
      ((p.arrive tracker dest).1.event.settled? tracker).toList.foldl push p.settled := by
  unfold arrive
  cases p.held.find? (Departed.under tracker) with
  | some h => rfl
  | none => cases tracker <;> rfl

theorem settled_arriveAll (tracker : Option Nat) (paths : List Path) (p : Pairing) :
    (arriveAll tracker paths p).2.settled =
      (((arriveAll tracker paths p).1.map Report.event).filterMap (Event.settled? tracker)).foldl push p.settled := by
  induction paths generalizing p with
  | nil => rfl
  | cons dest rest ih =>
    rw [arriveAll_cons, ih, settled_arrive, List.map_cons]
    cases settled : (p.arrive tracker dest).1.event.settled? tracker with
    | none => rw [List.filterMap_cons_none settled]; rfl
    | some s => rw [List.filterMap_cons_some settled]; rfl

theorem convert_both_eq {s : Signal} {src dest : Path} (clean : s.lossy = false) (kind : s.kind = .rename .both)
    (paths : s.paths = [src, dest]) (p : Pairing) (t : Tree) (now : Instant) :
    p.convert t s now = ((p.both s.tracker src dest).1.map Report.event, (p.both s.tracker src dest).2) := by
  rw [convert_rename clean kind, paths]
  rfl

/-- A signal about both sides is swallowed if it repeats what is remembered. -/
theorem swallows_iff {p : Pairing} {t : Tree} {s : Signal} {now : Instant} :
    p.Swallows (.signal t s now) ↔ s.lossy = false ∧ s.kind = .rename .both ∧
      ∃ src dest, s.paths = [src, dest] ∧ p.settled.any (Settled.covers src dest s.tracker) := by
  refine and_congr_right fun clean => and_congr_right fun kind => ?_
  rw [List.length_eq_two]
  constructor
  · rintro ⟨⟨src, dest, paths⟩, silent⟩
    refine ⟨src, dest, paths, ?_⟩
    rw [convert_both_eq clean kind paths, both] at silent
    split at silent
    · assumption
    · cases silent
  · rintro ⟨src, dest, paths, known⟩
    refine ⟨⟨src, dest, paths⟩, ?_⟩
    rw [convert_both_eq clean kind paths, both, if_pos known]
    rfl

theorem Swallows.any {p : Pairing} {c : Call} (swallows : p.Swallows c) : p.settled.any c.repeats := by
  cases c with
  | expire now => exact swallows.elim
  | signal t s now =>
    obtain ⟨-, -, src, dest, paths, known⟩ := swallows_iff.mp swallows
    rw [Call.repeats_of_paths paths]
    exact known

/-- A swallowed signal settles nothing. -/
theorem settles_of_swallows {p : Pairing} {c : Call} (swallows : p.Swallows c) : p.settles c = [] := by
  cases c with
  | expire now => rfl
  | signal t s now =>
    obtain ⟨-, kind, -⟩ := swallows
    exact if_neg (by simp [kind])

/-- A call takes one entry from the memory, or it adds what it settles. -/
theorem settled_call (p : Pairing) (c : Call) : (p.call c).2.settled =
    if p.Swallows c then p.settled.eraseP c.repeats else (p.settles c).foldl push p.settled := by
  cases c with
  | expire now => rfl
  | signal t s now =>
    rw [call]
    cases meaning Held t s with
    | departs clean kind answer =>
      rw [convert, answer]
      simp [Swallows, settles, kind, depart]
    | arrives clean kind =>
      rw [if_neg (by simp [Swallows, kind]), settles, if_pos ⟨clean, kind⟩, convert_arrived clean kind,
        settled_arriveAll]
    | both src dest clean kind paths =>
      have settlesNone : p.settles (.signal t s now) = [] := if_neg (by simp [kind])
      rw [convert_both_eq clean kind paths, both, settlesNone, Call.repeats_of_paths paths]
      by_cases known : p.settled.any (Settled.covers src dest s.tracker)
      · rw [if_pos (swallows_iff.mpr ⟨clean, kind, src, dest, paths, known⟩), if_pos known]
      · have reported : ¬ p.Swallows (.signal t s now) := by
          intro swallows
          have known' := swallows.any
          rw [Call.repeats_of_paths paths] at known'
          exact known known'
        rw [if_neg reported, if_neg known]
        rfl
    | aside departed arrived both reports about answer =>
      have reported : ¬ p.Swallows (.signal t s now) := by
        intro swallows
        obtain ⟨clean, kind, src, dest, paths, -⟩ := swallows_iff.mp swallows
        exact both src dest ⟨clean, kind, paths⟩
      rw [if_neg reported, settles, if_neg arrived, convert, answer]
      rfl

end Pairing
end StyleFeed
