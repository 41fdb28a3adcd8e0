import Mathlib.Data.List.TakeWhile
import StyleFeed.Toml.Scalar

/-!
The words of the integers. The word of an integer is read as that integer if it has 64 bits, and else as nothing at
all: it is no float and no moment either (`ofWord?_toString`).
-/

namespace StyleFeed.Toml.Scalar

section
variable {cs : List Char}

theorem grouped_of_digits (more : cs ≠ []) (digits : ∀ c ∈ cs, c.isDigit) : grouped Char.isDigit cs := by
  fun_induction grouped Char.isDigit cs with
  | case1 => exact absurd rfl more
  | case2 c => exact digits c List.mem_cons_self
  | case3 c rest ih => exact absurd (digits '_' (by simp)) (by decide)
  | case4 c rest last _ ih =>
    rw [digits c List.mem_cons_self, Bool.true_and]
    exact ih last fun d mem => digits d (List.mem_cons_of_mem _ mem)

theorem groupedValue_of_digits (digits : ∀ c ∈ cs, c.isDigit) : groupedValue 10 cs = Nat.ofDigitChars 10 cs 0 := by
  have kept : cs.filter (· != '_') = cs := by
    refine List.filter_eq_self.mpr fun c mem => ?_
    have := digits c mem
    rw [bne_iff_ne]
    rintro rfl
    exact absurd this (by decide)
  rw [groupedValue, kept, Nat.ofDigitChars_eq_foldl]
  generalize 0 = start
  clear kept
  induction cs generalizing start with
  | nil => rfl
  | cons c cs ih =>
    rw [List.foldl_cons, List.foldl_cons, digitValue, if_pos (digits c List.mem_cons_self), Nat.mul_comm]
    exact ih (fun d mem => digits d (List.mem_cons_of_mem _ mem)) _

theorem digits_toDigits (n : Nat) : ∀ c ∈ Nat.toDigits 10 n, c.isDigit :=
  fun _ => Nat.isDigit_of_mem_toDigits (by decide) (by decide)

/-- Only the numeral of zero begins with it. -/
theorem head?_toDigits {n : Nat} (positive : 0 < n) : (Nat.toDigits 10 n).head? ≠ some '0' := by
  induction n using Nat.base_induction 10 (by decide) with
  | single n small =>
    rw [Nat.toDigits_of_lt_base small]
    intro zero
    exact Nat.ne_of_gt positive (Nat.digitChar_eq_zero.mp (Option.some.inj zero))
  | digit n k small more ih =>
    rw [← Nat.toDigits_append_toDigits (by decide) more small, List.head?_append,
      List.head?_eq_some_head Nat.toDigits_ne_nil, Option.some_or, ← List.head?_eq_some_head]
    exact ih more

theorem natural?_toDigits (n : Nat) : natural? (Nat.toDigits 10 n) = some n := by
  have digits := digits_toDigits n
  rcases Nat.eq_zero_or_pos n with rfl | positive
  · rw [Nat.toDigits_zero]
    rfl
  · have first := head?_toDigits positive
    have more : Nat.toDigits 10 n ≠ ['0'] := fun zero => first (zero ▸ rfl)
    rw [natural?, if_neg more, if_pos ⟨first, grouped_of_digits Nat.toDigits_ne_nil digits⟩,
      groupedValue_of_digits digits, Nat.ofDigitChars_ten_toDigits]

/-! ## What a word of digits is not -/

theorem decimal?_of_digits (digits : ∀ c ∈ cs, c.isDigit) : decimal? cs = none := by
  have none : cs.dropWhile (fun c => c.isDigit || c == '_') = [] := by
    refine List.dropWhile_eq_nil_iff.mpr fun c mem => ?_
    rw [digits c mem, Bool.true_or]
  rw [decimal?]
  simp only [none]
  cases natural? (cs.takeWhile fun c => c.isDigit || c == '_') <;> rfl

theorem afterDate?_of_digits (c : Char) (digits : ∀ d ∈ cs, d.isDigit) : afterDate? (c :: cs) = none := by
  unfold afterDate?
  split
  · rename_i shape
    obtain ⟨-, rfl⟩ := List.cons.inj shape
    exact absurd (digits '-' (by simp)) (by decide)
  · rfl

theorem afterTime?_of_digits (c : Char) (digits : ∀ d ∈ cs, d.isDigit) : afterTime? (c :: cs) = none := by
  unfold afterTime?
  split
  · rename_i shape
    obtain ⟨-, rfl⟩ := List.cons.inj shape
    exact absurd (digits ':' (by simp)) (by decide)
  · rfl

theorem isMoment_of_digits (c : Char) (digits : ∀ d ∈ cs, d.isDigit) : isMoment (c :: cs) = false := by
  rw [isMoment, afterDate?_of_digits c digits, afterTime?_of_digits c digits]
  rfl

end

/-! ## The words of the integers -/

theorem toList_toString (n : Int) :
    (toString n).toList = (if n < 0 then ['-'] else []) ++ Nat.toDigits 10 n.natAbs := by
  rw [Int.toString_eq_repr, Int.repr_eq_if]
  split
  · rename_i nonnegative
    have same : n.toNat = n.natAbs := by omega
    rw [if_neg (by omega), Nat.toList_repr, List.nil_append, same]
  · rename_i negative
    have same : (-n).toNat = n.natAbs := by omega
    rw [if_pos (by omega), String.toList_append, Nat.toList_repr, same]
    rfl

/-- A minus or a digit, and digits. -/
theorem exists_toString (n : Int) :
    ∃ c cs, (toString n).toList = c :: cs ∧ (c = '-' ∨ c.isDigit) ∧ ∀ d ∈ cs, d.isDigit := by
  have digits := digits_toDigits n.natAbs
  rw [toList_toString]
  split
  · exact ⟨_, _, rfl, .inl rfl, digits⟩
  · obtain ⟨c, cs, shape⟩ := List.exists_cons_of_ne_nil (Nat.toDigits_ne_nil (n := n.natAbs) (b := 10))
    rw [shape] at digits ⊢
    exact ⟨c, cs, rfl, .inr (digits c List.mem_cons_self), fun d mem => digits d (List.mem_cons_of_mem _ mem)⟩

theorem whole?_of_digits {cs : List Char} (digits : ∀ c ∈ cs, c.isDigit) :
    whole? cs = (natural? cs).map Int.ofNat := by
  unfold whole?
  split
  case h_1 | h_2 | h_3 => exact absurd (digits _ (.tail _ List.mem_cons_self)) (by decide)
  case h_4 | h_5 => exact absurd (digits _ List.mem_cons_self) (by decide)
  rfl

theorem whole?_toString (n : Int) : whole? (toString n).toList = some n := by
  have digits := digits_toDigits n.natAbs
  rw [toList_toString]
  split
  · rename_i negative
    have opposite : -Int.ofNat n.natAbs = n := by simp only [Int.ofNat_eq_natCast]; omega
    rw [List.singleton_append, whole?, natural?_toDigits, Option.map_some, opposite]
  · rename_i nonnegative
    have same : Int.ofNat n.natAbs = n := by simp only [Int.ofNat_eq_natCast]; omega
    rw [List.nil_append, whole?_of_digits digits, natural?_toDigits, Option.map_some, same]

theorem isFloat_toString (n : Int) : isFloat (toString n).toList = false := by
  have digits := digits_toDigits n.natAbs
  have unsigned : (signed (toString n).toList).2 = Nat.toDigits 10 n.natAbs := by
    rw [toList_toString]
    split
    · rfl
    · unfold signed
      split
      case h_3 => rfl
      all_goals
        rename_i shape
        exact absurd (digits _ (shape ▸ List.mem_cons_self)) (by decide)
  have noName : ¬ (Nat.toDigits 10 n.natAbs = ['i', 'n', 'f'] ∨ Nat.toDigits 10 n.natAbs = ['n', 'a', 'n']) := by
    rintro (name | name)
    · exact absurd (digits 'i' (name ▸ List.mem_cons_self)) (by decide)
    · exact absurd (digits 'n' (name ▸ List.mem_cons_self)) (by decide)
  simp only [isFloat, unsigned, if_neg noName, decimal?_of_digits digits]

/-- An integer of 64 bits. -/
def Fits (n : Int) : Prop := -0x8000000000000000 ≤ n ∧ n < 0x8000000000000000

instance (n : Int) : Decidable (Fits n) := inferInstanceAs (Decidable (_ ∧ _))

/-- A word is read as the integer that it stands for, or as nothing. -/
theorem ofWord?_toString (n : Int) : ofWord? (toString n).toList = if Fits n then some (.integer n) else none := by
  have integer : integer? (toString n).toList = if Fits n then some n else none := by
    rw [integer?, whole?_toString, Option.filter_some]
    simp only [Fits, Bool.and_eq_true, decide_eq_true_eq]
    rfl
  have float := isFloat_toString n
  obtain ⟨c, cs, word, first, digits⟩ := exists_toString n
  rw [word] at integer float ⊢
  have other (d : Char) (ds : List Char) (h : d ≠ '-' ∧ d.isDigit = false) : c :: cs ≠ d :: ds := by
    intro same
    obtain ⟨rfl, -⟩ := List.cons.inj same
    rcases first with rfl | digit
    · exact h.1 rfl
    · cases h.2.symm.trans digit
  have notTrue : c :: cs ≠ "true".toList := other 't' "rue".toList (by decide)
  have notFalse : c :: cs ≠ "false".toList := other 'f' "alse".toList (by decide)
  rw [ofWord?, if_neg notTrue, if_neg notFalse, integer, float, isMoment_of_digits c digits]
  by_cases fits : Fits n
  · rw [if_pos fits, if_pos fits]
  · rw [if_neg fits, if_neg fits]
    rfl

end StyleFeed.Toml.Scalar
