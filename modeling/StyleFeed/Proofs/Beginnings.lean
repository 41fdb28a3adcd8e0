import Mathlib.Tactic.SplitIfs
import StyleFeed.Proofs.Lexeme

/-!
What the lexer makes of the beginning of a text. Its lexemes are those of the text up to some place and then, if that
is inside of a quoted text, what was read of it (`Cut`, `cut_of_append`). A token that has begun becomes a lexeme
whatever follows (`lexemes_of_begun`), so that only blanks make none (`lexemes_eq_nil_iff`).
-/

namespace StyleFeed.Json

/-- The token that the machine is inside of, as far as it was read. -/
def Token.Inside.begun? : Token.Inside → Option Begun
  | .nothing | .failed => none
  | .text units | .escape units | .hex units _ => some (.text units.reverse)
  | .number .. => some .number
  | .word .. => some .word

/-- The lexemes that a token which has begun can come to. -/
inductive Begun.Becomes : Begun → Lexeme → Prop
  | text (units more : List TextUnit) : Becomes (.text units) (.text (units ++ more))
  | brokenText (units more : List TextUnit) (flaw : Flaw) : Becomes (.text units) (.broken (.text (units ++ more)) flaw)
  | number (literal : Bytes) : Becomes .number (.number literal)
  | brokenNumber (flaw : Flaw) : Becomes .number (.broken .number flaw)
  | word (w : Word) : Becomes .word (.word w)
  | brokenWord (flaw : Flaw) : Becomes .word (.broken .word flaw)

theorem Begun.Becomes.of_append {units more : List TextUnit} {l : Lexeme}
    (h : Becomes (.text (units ++ more)) l) : Becomes (.text units) l := by
  cases h with
  | text _ last =>
    rw [List.append_assoc]
    exact .text ..
  | brokenText _ last flaw =>
    rw [List.append_assoc]
    exact .brokenText ..

/-- Neither cut nor malformed. -/
def Lexeme.Whole : Lexeme → Prop
  | .broken .. | .stray => False
  | _ => True

def IsBlank (b : UInt8) : Prop := b = 0x20 ∨ b = 0x09 ∨ b = 0x0a ∨ b = 0x0d

instance : DecidablePred IsBlank := fun _ => inferInstanceAs (Decidable (_ ∨ _))

namespace Token

/-- The lexemes that are complete after some bytes, and what the machine is inside of then. -/
def advance (i : Inside) : Bytes → List Lexeme × Inside
  | [] => ([], i)
  | b :: rest =>
    let next := step ⟨i, 0, 0⟩ b
    (next.1.map Token.lexeme ++ (advance next.2.inside rest).1, (advance next.2.inside rest).2)

theorem lexemes_append (i : Inside) (p q : Bytes) :
    lexemes i (p ++ q) = (advance i p).1 ++ lexemes (advance i p).2 q := by
  induction p generalizing i with
  | nil => rfl
  | cons b p ih => rw [List.cons_append, lexemes_cons, ih, advance, List.append_assoc]

theorem lexemes_eq_advance (i : Inside) (p : Bytes) :
    lexemes i p = (advance i p).1 ++ lexemes (advance i p).2 [] := by
  rw [← lexemes_append, List.append_nil]

/-! ## Tokens that have begun -/

/-- A byte completes the token that has begun, or the token goes on. -/
theorem step_begun {i : Inside} {g : Begun} (begun : i.begun? = some g) (b : UInt8) :
    (∃ l more, (step ⟨i, 0, 0⟩ b).1.map Token.lexeme = l :: more ∧ g.Becomes l) ∨
    ((step ⟨i, 0, 0⟩ b).1.map Token.lexeme = [] ∧ ∃ g', (step ⟨i, 0, 0⟩ b).2.inside.begun? = some g' ∧
      ∀ l, g'.Becomes l → g.Becomes l) := by
  cases i with
  | nothing | failed => cases begun
  | text units =>
    cases begun
    simp only [step, map_lexeme, textStep]
    split_ifs
    · exact .inl ⟨_, _, rfl, by simpa using Begun.Becomes.text units.reverse []⟩
    · exact .inr ⟨rfl, _, rfl, fun _ => id⟩
    · exact .inl ⟨_, _, rfl, by simpa using Begun.Becomes.brokenText units.reverse [] .malformed⟩
    · refine .inr ⟨rfl, _, rfl, fun l h => ?_⟩
      rw [List.reverse_cons] at h
      exact h.of_append
  | escape units =>
    cases begun
    simp only [step, map_lexeme, escapeStep]
    split
    · exact .inr ⟨rfl, _, rfl, fun _ => id⟩
    split
    · refine .inr ⟨rfl, _, rfl, fun l h => ?_⟩
      rw [List.reverse_cons] at h
      exact h.of_append
    · exact .inl ⟨_, _, rfl, by simpa using Begun.Becomes.brokenText units.reverse [] .malformed⟩
  | hex units digits =>
    cases begun
    simp only [step, map_lexeme, hexStep]
    split
    · exact .inr ⟨rfl, _, rfl, fun _ => id⟩
    split
    · refine .inr ⟨rfl, _, rfl, fun l h => ?_⟩
      rw [List.reverse_cons] at h
      exact h.of_append
    · exact .inl ⟨_, _, rfl, by simpa using Begun.Becomes.brokenText units.reverse [] .malformed⟩
  | number d literal =>
    cases begun
    simp only [step]
    split
    · exact .inr ⟨rfl, _, rfl, fun _ => id⟩
    split
    · exact .inl ⟨_, _, rfl, .number _⟩
    · exact .inl ⟨_, _, rfl, .brokenNumber _⟩
  | word w owed =>
    cases begun
    simp only [step, map_lexeme]
    unfold wordStep
    split
    · split
      · exact .inl ⟨_, _, rfl, .word _⟩
      · exact .inl ⟨_, _, rfl, .brokenWord _⟩
    · split
      · exact .inr ⟨rfl, _, rfl, fun _ => id⟩
      · exact .inl ⟨_, _, rfl, .brokenWord _⟩
    · exact .inl ⟨_, _, rfl, .brokenWord _⟩

/-- Whatever follows, a token that has begun becomes a lexeme. -/
theorem lexemes_of_begun {i : Inside} {g : Begun} (begun : i.begun? = some g) (text : Bytes) :
    ∃ l more, lexemes i text = l :: more ∧ g.Becomes l := by
  induction text generalizing i g with
  | nil =>
    cases i with
    | nothing | failed => cases begun
    | text units | escape units | hex units _ =>
      cases begun
      exact ⟨_, [], rfl, by simpa using Begun.Becomes.brokenText units.reverse [] .cut⟩
    | word w owed =>
      cases begun
      exact ⟨_, [], rfl, .brokenWord _⟩
    | number d literal =>
      cases begun
      by_cases complete : d.complete = true
      · exact ⟨_, [], by simp [lexemes, scanFrom, finish, complete], .number literal.reverse⟩
      · exact ⟨_, [], by simp [lexemes, scanFrom, finish, complete], .brokenNumber .cut⟩
  | cons b text ih =>
    rw [lexemes_cons]
    rcases step_begun begun b with ⟨l, more, completed, becomes⟩ | ⟨none, g', goesOn, becomes⟩
    · rw [completed]
      exact ⟨l, _, rfl, becomes⟩
    · obtain ⟨l, more, first, later⟩ := ih goesOn
      rw [none, first]
      exact ⟨l, more, rfl, becomes l later⟩

/-! ## Blanks -/

/-- What a byte does that is no part of a token before it. -/
inductive Starts (b : UInt8) : Inside × Option Lexeme → Prop
  | blank (h : IsBlank b) : Starts b (.nothing, none)
  | single (l : Lexeme) : Starts b (.nothing, some l)
  | begun {i : Inside} {g : Begun} (h : i.begun? = some g) : Starts b (i, none)
  | stray : Starts b (.failed, some .stray)

theorem starts_begin (b : UInt8) : Starts b (begin b) := by
  unfold begin
  refine iteInduction (fun blank => .blank blank) fun _ => ?_
  iterate 6 refine iteInduction (fun _ => .single _) fun _ => ?_
  iterate 7 refine iteInduction (fun _ => .begun rfl) fun _ => ?_
  exact .stray

theorem begin_blank {b : UInt8} (blank : IsBlank b) : begin b = (.nothing, none) := if_pos blank

theorem lexemes_eq_nil_iff {text : Bytes} : lexemes .nothing text = [] ↔ ∀ b ∈ text, IsBlank b := by
  induction text with
  | nil => exact ⟨fun _ => nofun, fun _ => rfl⟩
  | cons b text ih =>
    rw [lexemes_nothing, List.forall_mem_cons]
    by_cases blank : IsBlank b
    · rw [begin_blank blank, Option.toList_none, List.nil_append, ih]
      exact (and_iff_right blank).symm
    · simp only [blank, false_and, iff_false]
      have starts := starts_begin b
      generalize begin b = first at starts
      cases starts with
      | blank h => exact absurd h blank
      | single l => exact List.cons_ne_nil _ _
      | begun h =>
        obtain ⟨l, more, first, -⟩ := lexemes_of_begun h text
        rw [first]
        exact List.cons_ne_nil _ _
      | stray => exact List.cons_ne_nil _ _

/-! ## Texts that are cut -/

/-- The machine does not fail without a lexeme that says so. -/
theorem step_failed {i : Inside} {b : UInt8} (failed : (step ⟨i, 0, 0⟩ b).2.inside = .failed) :
    i = .failed ∨ ∃ l ∈ (step ⟨i, 0, 0⟩ b).1.map Token.lexeme, ¬ l.Whole := by
  have fresh (h : (begin b).1 = .failed) : ∃ l ∈ (begin b).2.toList, ¬ l.Whole := by
    have starts := starts_begin b
    generalize begin b = first at starts h
    cases starts with
    | blank | single => cases h
    | begun begun =>
      cases h
      cases begun
    | stray => exact ⟨_, List.mem_singleton_self _, id⟩
  cases i with
  | failed => exact .inl rfl
  | nothing => exact .inr (by simpa only [step, map_lexeme] using fresh failed)
  | text units =>
    simp only [step, map_lexeme, textStep] at failed ⊢
    split_ifs at failed ⊢
    exact .inr ⟨_, List.mem_singleton_self _, id⟩
  | escape units =>
    simp only [step, map_lexeme, escapeStep] at failed ⊢
    split_ifs at failed ⊢
    split at failed
    · cases failed
    · exact .inr ⟨_, List.mem_singleton_self _, id⟩
  | hex units digits =>
    simp only [step, map_lexeme, hexStep] at failed ⊢
    split_ifs at failed ⊢
    split at failed
    · cases failed
    · exact .inr ⟨_, List.mem_singleton_self _, id⟩
  | number d literal =>
    simp only [step] at failed ⊢
    split at failed
    · cases failed
    split_ifs at failed ⊢
    · obtain ⟨l, mem, broken⟩ := fresh failed
      refine .inr ⟨l, ?_, broken⟩
      rw [List.map_cons, map_lexeme]
      exact List.mem_cons_of_mem _ mem
    · exact .inr ⟨_, List.mem_singleton_self _, id⟩
  | word w owed =>
    simp only [step, map_lexeme] at failed ⊢
    unfold wordStep at failed ⊢
    split at failed
    · split_ifs at failed ⊢
      exact .inr ⟨_, List.mem_singleton_self _, id⟩
    · split_ifs at failed ⊢
      exact .inr ⟨_, List.mem_singleton_self _, id⟩
    · exact .inr ⟨_, List.mem_singleton_self _, id⟩

theorem advance_failed {i : Inside} {p : Bytes} (failed : (advance i p).2 = .failed) :
    i = .failed ∨ ∃ l ∈ (advance i p).1, ¬ l.Whole := by
  induction p generalizing i with
  | nil => exact .inl failed
  | cons b p ih =>
    rcases ih failed with now | ⟨l, mem, broken⟩
    · refine (step_failed now).imp_right ?_
      rintro ⟨l, mem, broken⟩
      exact ⟨l, List.mem_append_left _ mem, broken⟩
    · exact .inr ⟨l, List.mem_append_right _ mem, broken⟩

end Token

/-- The first list is what is read in place of the second when the text ends too early: between two lexemes, or inside
of a quoted text. -/
inductive Cut : List Lexeme → List Lexeme → Prop
  | between (l : Lexeme) (ls : List Lexeme) : Cut [] (l :: ls)
  | inside (units more : List TextUnit) (ls : List Lexeme) :
      Cut [.broken (.text units) .cut] (.text (units ++ more) :: ls)
  | later {ks ls : List Lexeme} (l : Lexeme) (h : Cut ks ls) : Cut (l :: ks) (l :: ls)

/-- Texts and single bytes, but neither numbers nor words. -/
def Lexeme.Plain : Lexeme → Prop
  | .number _ | .word _ | .broken .. | .stray => False
  | _ => True

theorem Lexeme.Plain.whole {l : Lexeme} (h : l.Plain) : l.Whole := by
  cases l <;> first | exact h | trivial

namespace Cut

theorem append (done : List Lexeme) {ks ls : List Lexeme} (h : Cut ks ls) : Cut (done ++ ks) (done ++ ls) := by
  induction done with
  | nil => exact h
  | cons l done ih => exact .later l ih

theorem ne_nil {ks ls : List Lexeme} (h : Cut ks ls) : ls ≠ [] := by
  cases h <;> exact List.cons_ne_nil _ _

theorem head {k l : Lexeme} {ks ls : List Lexeme} (h : Cut (k :: ks) (l :: ls)) :
    k = l ∨ ∃ units, k = .broken (.text units) .cut := by
  cases h with
  | inside units => exact .inr ⟨units, rfl⟩
  | later => exact .inl rfl

/-- A text is cut in its first part, or else later. -/
theorem of_append (ls : List Lexeme) {ks ms : List Lexeme} (h : Cut ks (ls ++ ms)) :
    Cut ks ls ∨ ∃ rest, ks = ls ++ rest ∧ Cut rest ms := by
  induction ls generalizing ks with
  | nil => exact .inr ⟨ks, rfl, h⟩
  | cons l ls ih =>
    cases h with
    | between => exact .inl (.between l ls)
    | inside units more => exact .inl (.inside units more ls)
    | later _ h =>
      rcases ih h with first | ⟨rest, rfl, later⟩
      · exact .inl (.later l first)
      · exact .inr ⟨rest, rfl, later⟩

end Cut

namespace Token

/-- A quoted text that the end cuts off. -/
theorem lexemes_nil_of_begun {i : Inside} {units : List TextUnit} (begun : i.begun? = some (.text units)) :
    lexemes i [] = [.broken (.text units) .cut] := by
  cases i with
  | nothing | failed | number | word => cases begun
  | text | escape | hex =>
    cases begun
    rfl

/-- Where no lexeme is a number or a word, the machine is between two lexemes or inside of a quoted text. -/
theorem advance_of_plain {p q : Bytes} (plain : ∀ l ∈ lexemes .nothing (p ++ q), l.Plain) :
    (advance .nothing p).2 = .nothing ∨ ∃ units more ls,
      lexemes (advance .nothing p).2 [] = [.broken (.text units) .cut] ∧
        lexemes (advance .nothing p).2 q = .text (units ++ more) :: ls := by
  rw [lexemes_append] at plain
  cases begun : (advance .nothing p).2.begun? with
  | some g =>
    obtain ⟨l, ls, first, becomes⟩ := lexemes_of_begun begun q
    have fine : l.Plain := plain l (List.mem_append_right _ (first ▸ List.mem_cons_self))
    cases becomes with
    | text units more => exact .inr ⟨units, more, ls, lexemes_nil_of_begun begun, first⟩
    | brokenText | number | brokenNumber | word | brokenWord => exact fine.elim
  | none =>
    cases last : (advance .nothing p).2 with
    | nothing => exact .inl rfl
    | failed =>
      rcases advance_failed last with h | ⟨l, mem, broken⟩
      · cases h
      · exact absurd (plain l (List.mem_append_left _ mem)).whole broken
    | text | escape | hex | number | word =>
      rw [last] at begun
      cases begun

/-- The lexemes of a text without numbers and words, and those of a beginning of it that lacks more than blanks. -/
theorem cut_of_append {p q : Bytes} (plain : ∀ l ∈ lexemes .nothing (p ++ q), l.Plain)
    (missing : ∃ b ∈ q, ¬ IsBlank b) : Cut (lexemes .nothing p) (lexemes .nothing (p ++ q)) := by
  rw [lexemes_eq_advance, lexemes_append]
  apply Cut.append
  rcases advance_of_plain plain with last | ⟨units, more, ls, cut, whole⟩
  · rw [last]
    obtain ⟨b, mem, shows⟩ := missing
    have more : lexemes .nothing q ≠ [] := fun none => shows (lexemes_eq_nil_iff.mp none b mem)
    obtain ⟨l, ls, first⟩ := List.exists_cons_of_ne_nil more
    rw [first]
    exact .between l ls
  · rw [cut, whole]
    exact .inside units more ls

/-- After such a text the machine starts anew. -/
theorem lexemes_append_of_plain {p : Bytes} (plain : ∀ l ∈ lexemes .nothing p, l.Plain) (q : Bytes) :
    lexemes .nothing (p ++ q) = lexemes .nothing p ++ lexemes .nothing q := by
  have split := advance_of_plain (q := []) (by rwa [List.append_nil])
  rw [lexemes_eq_advance _ p, lexemes_append]
  rcases split with last | ⟨units, more, ls, cut, whole⟩
  · rw [last]
    exact congrArg (· ++ _) (List.append_nil _).symm
  · cases cut.symm.trans whole

end Token
end StyleFeed.Json
