import StyleFeed.Names
import StyleFeed.Proofs.Naming
import StyleFeed.Shelf

/-!
What a shelf and the remembered names say about a tree, seen as the contents of its style sheets by route.
Each message changes one or two routes; `Account.created`, `Account.deleted` and `Account.moved` are about
the lists of messages that events amount to.
-/

namespace StyleFeed

/-- The contents of the style sheets, by route. -/
abbrev Cabinet := Route → Option String

/-- The shelf holds what is in the cabinet under its name, and the names are those on the shelf. -/
structure Account (C : Cabinet) (s : Shelf) (k : Names) : Prop where
  sheets : ∀ r c, C r = some c → r.IsSheet ∧ r.Plain
  content : ∀ n c, s.content? n = some c ↔ ∃ r, C r = some c ∧ r.logicalName = n
  known : ∀ n, n ∈ k ↔ ∃ c, s.content? n = some c

/-- The shelf and the names after some messages. -/
def Account.After (C : Cabinet) (s : Shelf) (k : Names) (ms : List Message) : Prop :=
  Account C (s.receiveAll ms) (ms.foldl Names.record k)

namespace Account

variable {C C' : Cabinet} {s : Shelf} {k : Names} {r q : Route} {c : String}

theorem empty : Account (fun _ => none) .empty .empty where
  sheets := by simp
  content := by simp
  known := by simp

/-- Only one style sheet has the name of a style sheet. -/
theorem eq_of_logicalName (h : Account C s k) (hq : C q = some c) (sheet : r.IsSheet) (plain : r.Plain)
    (same : q.logicalName = r.logicalName) : q = r :=
  Route.logicalName_injective (h.sheets q c hq).1 sheet (h.sheets q c hq).2 plain same

theorem put (h : Account C s k) (sheet : r.IsSheet) (plain : r.Plain) (c : String)
    (here : C' r = some c) (elsewhere : ∀ q, q ≠ r → C' q = C q) :
    Account C' (s.put r.logicalName c) (k.insert r.logicalName) where
  sheets q d hq := by
    by_cases same : q = r
    · rw [same]
      exact ⟨sheet, plain⟩
    · exact h.sheets q d (elsewhere q same ▸ hq)
  content n d := by
    rw [Shelf.content?_put]
    split
    · rename_i hn
      subst hn
      constructor
      · rintro ⟨rfl⟩
        exact ⟨r, here, rfl⟩
      · rintro ⟨q, hq, name⟩
        by_cases same : q = r
        · rw [same, here] at hq
          exact hq
        · rw [elsewhere q same] at hq
          exact absurd (h.eq_of_logicalName hq sheet plain name) same
    · rename_i hn
      rw [h.content]
      have apart {q : Route} (name : q.logicalName = n) : q ≠ r := by
        rintro rfl
        exact hn name.symm
      constructor
      · rintro ⟨q, hq, name⟩
        exact ⟨q, by rw [elsewhere q (apart name), hq], name⟩
      · rintro ⟨q, hq, name⟩
        exact ⟨q, by rw [← elsewhere q (apart name), hq], name⟩
  known n := by
    by_cases same : n = r.logicalName <;> simp [same, h.known]

theorem drop (h : Account C s k) (n : String) (gone : ∀ q, q.logicalName = n → C' q = none)
    (elsewhere : ∀ q, q.logicalName ≠ n → C' q = C q) : Account C' (s.drop n) (k.erase n) where
  sheets q d hq := by
    by_cases same : q.logicalName = n
    · rw [gone q same] at hq
      cases hq
    · exact h.sheets q d (elsewhere q same ▸ hq)
  content m d := by
    rw [Shelf.content?_drop]
    split
    · rename_i hm
      constructor
      · rintro ⟨⟩
      · rintro ⟨q, hq, name⟩
        rw [gone q (name.trans hm)] at hq
        cases hq
    · rename_i hm
      rw [h.content]
      constructor
      · rintro ⟨q, hq, rfl⟩
        exact ⟨q, by rw [elsewhere q hm, hq], rfl⟩
      · rintro ⟨q, hq, rfl⟩
        exact ⟨q, by rw [← elsewhere q hm, hq], rfl⟩
  known m := by
    by_cases same : m = n <;> simp [same, h.known]

/-- Only the entry of one style sheet goes. -/
theorem drop_route (h : Account C s k) (sheet : r.IsSheet) (plain : r.Plain) (gone : C' r = none)
    (elsewhere : ∀ q, q ≠ r → C' q = C q) :
    Account C' (s.drop r.logicalName) (k.erase r.logicalName) := by
  have apart {q : Route} (hq : C q ≠ none) (name : q.logicalName = r.logicalName) : q = r := by
    obtain ⟨d, hd⟩ := Option.ne_none_iff_exists'.mp hq
    exact h.eq_of_logicalName hd sheet plain name
  refine h.drop _ (fun q name => ?_) fun q name => elsewhere q fun same => name (same ▸ rfl)
  by_cases same : q = r
  · rw [same, gone]
  · rw [elsewhere q same]
    by_contra hq
    exact same (apart hq name)

theorem rename (h : Account C s k) {r' : Route} (hr : C r = some c) (sheet : r'.IsSheet) (plain : r'.Plain)
    (gone : C' r = none) (here : C' r' = some c) (elsewhere : ∀ q, q ≠ r → q ≠ r' → C' q = C q) :
    Account C' (s.receive (.renamed r.logicalName r'.logicalName))
      (k.record (.renamed r.logicalName r'.logicalName)) := by
  obtain ⟨sheetOld, plainOld⟩ := h.sheets r c hr
  have between : Account (fun q => if q = r then none else C q) (s.drop r.logicalName)
      (k.erase r.logicalName) := by
    refine h.drop_route sheetOld plainOld (if_pos rfl) fun q hq => if_neg hq
  have content : s.content? r.logicalName = some c := (h.content _ _).mpr ⟨r, hr, rfl⟩
  simp only [Shelf.receive, content]
  refine between.put sheet plain c here ?_
  intro q hq
  split
  · rename_i same
    rw [same, gone]
  · rename_i same
    exact elsewhere q same hq

/-- Each of the style sheets is reported with its content. -/
theorem created {routes : List Route} (h : Account C s k) (content : Route → String)
    (sheets : ∀ r ∈ routes, r.IsSheet ∧ r.Plain) (here : ∀ r ∈ routes, C' r = some (content r))
    (elsewhere : ∀ r, r ∉ routes → C' r = C r) :
    After C' s k (routes.map fun r => .created r.logicalName (content r)) := by
  induction routes generalizing C s k with
  | nil =>
    have : C' = C := funext fun r => elsewhere r List.not_mem_nil
    rw [this]
    exact h
  | cons r routes ih =>
    have ⟨⟨sheet, plain⟩, sheets⟩ := List.forall_mem_cons.mp sheets
    have ⟨hereFirst, here⟩ := List.forall_mem_cons.mp here
    have first : Account (fun q => if q = r then C' q else C q) (s.put r.logicalName (content r))
        (k.insert r.logicalName) := by
      refine h.put sheet plain (content r) ?_ fun q hq => if_neg hq
      rw [if_pos rfl, hereFirst]
    refine ih first sheets here ?_
    intro q hq
    split
    · rfl
    · rename_i other
      exact elsewhere q (by simp [other, hq])

/-- Each of the names is taken back. -/
theorem deleted {names : List String} (h : Account C s k)
    (gone : ∀ r, r.logicalName ∈ names → C' r = none)
    (elsewhere : ∀ r, r.logicalName ∉ names → C' r = C r) :
    After C' s k (names.map .deleted) := by
  induction names generalizing C s k with
  | nil =>
    have : C' = C := funext fun r => elsewhere r List.not_mem_nil
    rw [this]
    exact h
  | cons n names ih =>
    have first : Account (fun r => if r.logicalName = n then none else C r) (s.drop n) (k.erase n) :=
      h.drop n (fun r hr => if_pos hr) fun r hr => if_neg hr
    refine ih first (fun r hr => gone r (List.mem_cons_of_mem n hr)) fun r hr => ?_
    split
    · rename_i same
      exact gone r (List.mem_cons.mpr (.inl same))
    · rename_i other
      exact elsewhere r (by simp [other, hr])

/-- A file has come from `old` to `new`, where it is a style sheet. -/
def move (old new : Route) (content : String) : Message :=
  if old.IsSheet then .renamed old.logicalName new.logicalName else .created new.logicalName content

theorem after_move (h : Account C s k) {old new : Route} (before : old.IsSheet → C old = some c)
    (sheet : new.IsSheet) (plain : new.Plain) (here : C' new = some c) (gone : C' old = none)
    (elsewhere : ∀ q, q ≠ old → q ≠ new → C' q = C q) :
    Account C' (s.receive (move old new c)) (k.record (move old new c)) := by
  unfold move
  split
  · rename_i oldSheet
    exact h.rename (before oldSheet) sheet plain gone here elsewhere
  · rename_i noSheet
    refine h.put sheet plain c here ?_
    intro q hq
    by_cases same : q = old
    · rw [same, gone]
      cases hold : C old with
      | none => rfl
      | some d => exact absurd (h.sheets old d hold).1 noSheet
    · exact elsewhere q same hq

/-- Each of the style sheets below `dest` came from the same place below `src`. -/
theorem moved {src dest : Route} {below : List Route} (h : Account C s k) (content : Route → String)
    (distinct : below.Nodup) (apart : ∀ x y, src ++ x ≠ dest ++ y)
    (old : ∀ x ∈ below, Route.IsSheet (src ++ x) → C (src ++ x) = some (content x))
    (sheets : ∀ x ∈ below, Route.IsSheet (dest ++ x) ∧ Route.Plain (dest ++ x))
    (here : ∀ x ∈ below, C' (dest ++ x) = some (content x))
    (gone : ∀ x ∈ below, C' (src ++ x) = none)
    (elsewhere : ∀ r, (∀ x ∈ below, r ≠ src ++ x ∧ r ≠ dest ++ x) → C' r = C r) :
    After C' s k (below.map fun x => move (src ++ x) (dest ++ x) (content x)) := by
  induction below generalizing C s k with
  | nil =>
    have : C' = C := funext fun r => elsewhere r (by simp)
    rw [this]
    exact h
  | cons x below ih =>
    have ⟨new, distinct⟩ := List.nodup_cons.mp distinct
    have ⟨oldFirst, old⟩ := List.forall_mem_cons.mp old
    have ⟨⟨sheet, plain⟩, sheets⟩ := List.forall_mem_cons.mp sheets
    have ⟨hereFirst, here⟩ := List.forall_mem_cons.mp here
    have ⟨goneFirst, gone⟩ := List.forall_mem_cons.mp gone
    -- between, the routes of `x` are as they will be, and the others as they were
    have first : Account (fun r => if r = src ++ x ∨ r = dest ++ x then C' r else C r)
        (s.receive (move (src ++ x) (dest ++ x) (content x)))
        (k.record (move (src ++ x) (dest ++ x) (content x))) := by
      refine h.after_move oldFirst sheet plain ?_ ?_ fun q hs hd => if_neg (by simp [hs, hd])
      · simp [hereFirst]
      · simp [goneFirst]
    refine ih first distinct ?_ sheets here gone ?_
    · intro y hy hs
      have other : y ≠ x := fun same => new (same ▸ hy)
      simp [other, apart y x, old y hy hs]
    · intro r hr
      by_cases hx : r = src ++ x ∨ r = dest ++ x
      · simp [hx]
      · simp only [hx, if_false]
        apply elsewhere
        intro y hy
        rcases List.mem_cons.mp hy with rfl | hy
        · simpa using hx
        · exact hr y hy

end Account
end StyleFeed
