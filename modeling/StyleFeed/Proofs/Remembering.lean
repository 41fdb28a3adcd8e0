import Mathlib.Data.List.Sort
import StyleFeed.Names

/-!
The names that some messages leave: those that a message brings and no later one takes (`Names.mem_foldl_record`).
Where the messages are of one sort these are the ones that come in with them (`Names.mem_foldl_arrivals`,
`Names.mem_foldl_created`), and the ones that are not taken back (`Names.mem_foldl_deleted`).
-/

namespace StyleFeed

/-- The name that a style had before the message. -/
def Message.oldName? : Message → Option String
  | .renamed oldName _ => some oldName
  | _ => none

/-- The message says that there is a style of this name. -/
def Message.Brings (n : String) : Message → Prop
  | .created name _ | .modified name _ | .renamed _ name => name = n
  | .deleted _ => False

/-- The message says that the style of this name is gone, or is called otherwise. -/
def Message.Takes (n : String) : Message → Prop
  | .created .. | .modified .. => False
  | .deleted name | .renamed name _ => name = n

/-- Of the messages one brings the name, and none after it takes it. -/
def Message.Leave (ms : List Message) (n : String) : Prop :=
  ∃ before m after, ms = before ++ m :: after ∧ m.Brings n ∧ ∀ x ∈ after, ¬ x.Takes n

namespace Names

/-- Names are given by what is among them. -/
theorem ext {s t : Names} (h : ∀ n, n ∈ s ↔ n ∈ t) : s = t := by
  have : Std.Irrefl (α := String) (· < ·) := ⟨String.lt_irrefl⟩
  have : Std.Antisymm (α := String) (· < ·) := ⟨fun _ _ less more => absurd more (String.lt_asymm less)⟩
  cases s with | mk l ascending =>
    cases t with | mk m ascending' =>
      congr
      exact ascending.eq_of_mem_iff ascending' h

@[simp]
theorem mem_ofList {x : String} {l : List String} : x ∈ Names.ofList l ↔ x ∈ l := by
  have from_ (k : Names) : x ∈ l.foldl Names.insert k ↔ x ∈ k ∨ x ∈ l := by
    induction l generalizing k with
    | nil => simp
    | cons n l ih =>
      rw [List.foldl_cons, ih, mem_insert, List.mem_cons, or_assoc, or_left_comm]
  rw [ofList, from_]
  simp

theorem mem_record_iff {n : String} {k : Names} {m : Message} : n ∈ k.record m ↔ m.Brings n ∨ n ∈ k ∧ ¬ m.Takes n := by
  cases m with
  | created | modified => simp [record, Message.Brings, Message.Takes, eq_comm]
  | deleted => simp [record, Message.Brings, Message.Takes, eq_comm]
  | renamed => simp [record, Message.Brings, Message.Takes, eq_comm]

theorem mem_foldl_record {ms : List Message} {k : Names} {n : String} :
    n ∈ ms.foldl record k ↔ Message.Leave ms n ∨ n ∈ k ∧ ∀ m ∈ ms, ¬ m.Takes n := by
  induction ms generalizing k with
  | nil => simp [Message.Leave]
  | cons m ms ih =>
    rw [List.foldl_cons, ih, mem_record_iff, List.forall_mem_cons]
    constructor
    · rintro (⟨before, x, after, rfl, brings, stays⟩ | ⟨brings | ⟨known, kept⟩, stays⟩)
      · exact .inl ⟨m :: before, x, after, rfl, brings, stays⟩
      · exact .inl ⟨[], m, ms, rfl, brings, stays⟩
      · exact .inr ⟨known, kept, stays⟩
    · rintro (⟨before, x, after, split, brings, stays⟩ | ⟨known, kept, stays⟩)
      · cases before with
        | nil =>
          cases split
          exact .inr ⟨.inl brings, stays⟩
        | cons y before =>
          cases split
          exact .inl ⟨before, x, after, rfl, brings, stays⟩
      · exact .inr ⟨.inr ⟨known, kept⟩, stays⟩

theorem mem_record {n : String} {k : Names} {m : Message} (h : m.kind ≠ .deleted) :
    n ∈ k.record m ↔ (n ∈ k ∧ m.oldName? ≠ some n) ∨ m.name = n := by
  rw [mem_record_iff, or_comm]
  cases m with
  | created | modified => simp [Message.Brings, Message.Takes, Message.oldName?, Message.name]
  | deleted name => exact absurd rfl h
  | renamed => simp [Message.Brings, Message.Takes, Message.oldName?, Message.name]

/-- Messages that report styles and rename some, none to a name that another one takes away. -/
theorem mem_foldl_arrivals {ms : List Message} {k : Names} (coming : ∀ m ∈ ms, m.kind ≠ .deleted)
    (apart : ∀ m ∈ ms, ∀ m' ∈ ms, m.oldName? ≠ some m'.name) {n : String} :
    n ∈ ms.foldl record k ↔ (n ∈ k ∧ ∀ m ∈ ms, m.oldName? ≠ some n) ∨ ∃ m ∈ ms, m.name = n := by
  induction ms generalizing k with
  | nil => simp
  | cons m ms ih =>
    have ⟨first, rest⟩ := List.forall_mem_cons.mp coming
    have apartRest : ∀ x ∈ ms, ∀ y ∈ ms, x.oldName? ≠ some y.name := fun x hx y hy =>
      apart x (List.mem_cons_of_mem m hx) y (List.mem_cons_of_mem m hy)
    rw [List.foldl_cons, ih rest apartRest, mem_record first, List.forall_mem_cons]
    simp only [List.mem_cons, exists_eq_or_imp]
    constructor
    · rintro (⟨⟨known, kept⟩ | same, others⟩ | later)
      · exact .inl ⟨known, kept, others⟩
      · exact .inr (.inl same)
      · exact .inr (.inr later)
    · rintro (⟨known, kept, others⟩ | same | later)
      · exact .inl ⟨.inl ⟨known, kept⟩, others⟩
      · refine .inl ⟨.inr same, fun x hx old => ?_⟩
        exact apart x (List.mem_cons_of_mem m hx) m List.mem_cons_self (same ▸ old)
      · exact .inr later

theorem mem_foldl_created {ms : List Message} {k : Names} (reports : ∀ m ∈ ms, m.kind = .created) {n : String} :
    n ∈ ms.foldl record k ↔ n ∈ k ∨ ∃ m ∈ ms, m.name = n := by
  have noOld : ∀ m ∈ ms, m.oldName? = none := by
    intro m hm
    have := reports m hm
    cases m with
    | created => rfl
    | deleted | modified | renamed => cases this
  have coming : ∀ m ∈ ms, m.kind ≠ .deleted := fun m hm => by rw [reports m hm]; decide
  rw [mem_foldl_arrivals coming fun m hm m' _ => by rw [noOld m hm]; nofun]
  refine or_congr_left (and_iff_left fun m hm => ?_)
  rw [noOld m hm]
  nofun

@[simp]
theorem mem_foldl_deleted {names : List String} {k : Names} {n : String} :
    n ∈ (names.map Message.deleted).foldl record k ↔ n ∈ k ∧ n ∉ names := by
  induction names generalizing k with
  | nil => simp
  | cons m names ih =>
    rw [List.map_cons, List.foldl_cons, ih, record, mem_erase, List.mem_cons, not_or, and_assoc]

end Names
end StyleFeed
