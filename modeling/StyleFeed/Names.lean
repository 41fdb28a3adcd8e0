import StyleFeed.Message.Basic

/-!
The names that the browser was told of: a finite set, listed in ascending order, and how a message that
was sent changes it.
-/

namespace StyleFeed

structure Names where
  toList : List String
  ascending : toList.Pairwise (· < ·)
deriving DecidableEq

namespace Names

instance : Membership String Names := ⟨fun s n => n ∈ s.toList⟩

@[simp, grind =]
theorem mem_toList {n : String} {s : Names} : n ∈ s.toList ↔ n ∈ s := Iff.rfl

instance (n : String) (s : Names) : Decidable (n ∈ s) :=
  inferInstanceAs (Decidable (n ∈ s.toList))

def empty : Names := ⟨[], .nil⟩

/-- Puts a name where it belongs. -/
def insertInto (n : String) : List String → List String
  | [] => [n]
  | m :: rest => if n < m then n :: m :: rest else if m < n then m :: insertInto n rest else m :: rest

theorem mem_insertInto {x n : String} {l : List String} : x ∈ insertInto n l ↔ x = n ∨ x ∈ l := by
  induction l with
  | nil => simp [insertInto]
  | cons m rest ih =>
    unfold insertInto
    split
    · simp
    · split
      · simp only [List.mem_cons, ih]
        constructor <;> rintro (h | h | h) <;> simp [h]
      · rename_i hn hm
        have : n = m := by
          have := Std.le_antisymm (Std.not_lt.mp hm) (Std.not_lt.mp hn)
          exact this
        simp [this]

theorem pairwise_insertInto {n : String} {l : List String} (h : l.Pairwise (· < ·)) :
    (insertInto n l).Pairwise (· < ·) := by
  induction l with
  | nil => simp [insertInto]
  | cons m rest ih =>
    have hr {x} (hx : x ∈ rest) : m < x := List.rel_of_pairwise_cons h hx
    unfold insertInto
    split
    · rename_i hn
      refine .cons (fun x hx => ?_) h
      rcases List.mem_cons.mp hx with rfl | hx
      · exact hn
      · exact String.lt_trans hn (hr hx)
    · split
      · rename_i hm
        refine .cons (fun x hx => ?_) (ih (List.Pairwise.of_cons h))
        rcases mem_insertInto.mp hx with rfl | hx
        · exact hm
        · exact hr hx
      · exact h

def insert (s : Names) (n : String) : Names :=
  ⟨insertInto n s.toList, pairwise_insertInto s.ascending⟩

def filter (s : Names) (p : String → Bool) : Names :=
  ⟨s.toList.filter p, s.ascending.filter p⟩

def erase (s : Names) (n : String) : Names :=
  s.filter (· != n)

def ofList (l : List String) : Names :=
  l.foldl insert empty

def diff (s t : Names) : Names :=
  s.filter (· ∉ t)

@[simp, grind ←]
theorem not_mem_empty {x : String} : x ∉ empty := List.not_mem_nil

@[simp, grind =]
theorem mem_insert {x n : String} {s : Names} : x ∈ s.insert n ↔ x = n ∨ x ∈ s :=
  mem_insertInto

@[simp, grind =]
theorem mem_filter {x : String} {s : Names} {p : String → Bool} :
    x ∈ s.filter p ↔ x ∈ s ∧ p x :=
  List.mem_filter

/-- For a property that is decided by a computation. -/
theorem mem_filter_iff {x : String} {s : Names} {P : String → Prop} [DecidablePred P] :
    x ∈ s.filter (P ·) ↔ x ∈ s ∧ P x := by
  simp

@[simp, grind =]
theorem mem_erase {x n : String} {s : Names} : x ∈ s.erase n ↔ x ∈ s ∧ x ≠ n := by
  simp [erase]

@[simp, grind =]
theorem mem_diff {x : String} {s t : Names} : x ∈ s.diff t ↔ x ∈ s ∧ x ∉ t := by
  simp [diff]

/-- The names after a message was sent. -/
def record (s : Names) : Message → Names
  | .created name _ | .modified name _ => s.insert name
  | .deleted name => s.erase name
  | .renamed oldName newName => (s.erase oldName).insert newName

end Names
end StyleFeed
