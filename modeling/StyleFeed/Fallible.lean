/-!
Computations that end with a value or with the reason why there is none: what such a sequence comes to, step by step.
-/

namespace StyleFeed

variable {α β ε : Type}

@[simp]
theorem ok_bind (a : α) (f : α → Except ε β) : (Except.ok a >>= f) = f a := rfl

@[simp]
theorem error_bind (e : ε) (f : α → Except ε β) : (Except.error e >>= f) = .error e := rfl

@[simp]
theorem pure_eq_ok (a : α) : (pure a : Except ε α) = .ok a := rfl

theorem exists_of_bind_eq_ok {x : Except ε α} {f : α → Except ε β} {y : β} (h : x >>= f = .ok y) :
    ∃ a, x = .ok a ∧ f a = .ok y := by
  cases x with
  | error e => cases h
  | ok a => exact ⟨a, rfl, h⟩

theorem mapM_eq_ok {f : α → Except ε β} {g : α → β} {l : List α} (h : ∀ x ∈ l, f x = .ok (g x)) :
    l.mapM f = .ok (l.map g) := by
  induction l with
  | nil => rfl
  | cons x l ih =>
    have ⟨first, rest⟩ := List.forall_mem_cons.mp h
    simp only [List.mapM_cons, first, ih rest, ok_bind, pure_eq_ok, List.map_cons]

theorem exists_mapM_eq_ok {f : α → Except ε β} {l : List α} (h : ∀ x ∈ l, ∃ y, f x = .ok y) :
    ∃ ys, l.mapM f = .ok ys ∧ ∀ y, y ∈ ys ↔ ∃ x ∈ l, f x = .ok y := by
  induction l with
  | nil => exact ⟨[], rfl, by simp⟩
  | cons x l ih =>
    have ⟨⟨y, first⟩, rest⟩ := List.forall_mem_cons.mp h
    obtain ⟨ys, found, mem⟩ := ih rest
    refine ⟨y :: ys, by simp [first, found], fun z => ?_⟩
    simp only [List.mem_cons, exists_eq_or_imp, mem, first, Except.ok.injEq]
    exact or_congr_left eq_comm

theorem eq_map_of_mapM {f : α → Except ε β} {g : α → β} (h : ∀ x y, f x = .ok y → y = g x) {l : List α} {ys : List β}
    (found : l.mapM f = .ok ys) : ys = l.map g := by
  induction l generalizing ys with
  | nil => cases found; rfl
  | cons x rest ih =>
    rw [List.mapM_cons] at found
    obtain ⟨y, first, found⟩ := exists_of_bind_eq_ok found
    obtain ⟨more, others, found⟩ := exists_of_bind_eq_ok found
    cases found
    rw [List.map_cons, h x y first, ih others]

end StyleFeed
