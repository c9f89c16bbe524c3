import ConcentratedLiquidity.Error

/-!
# Computations that can fail

A computation in several steps succeeds when each step does, and otherwise ends in the failure of the first step that fails.
-/

namespace ConcentratedLiquidity

variable {α β : Type}

theorem ok_bind (value : α) (next : α → Except Error β) : (Except.ok value >>= next) = next value := rfl

theorem bind_eq_ok_iff {first : Except Error α} {next : α → Except Error β} {result : β} :
    (first >>= next) = .ok result ↔ ∃ value, first = .ok value ∧ next value = .ok result := by
  cases first with
  | error cause =>
    constructor
    · intro h; cases h
    · rintro ⟨value, h, _⟩; cases h
  | ok value =>
    constructor
    · intro h; exact ⟨value, rfl, h⟩
    · rintro ⟨_, h, hnext⟩
      cases h
      exact hnext

theorem bind_eq_error_iff {first : Except Error α} {next : α → Except Error β} {cause : Error} :
    (first >>= next) = .error cause ↔
      first = .error cause ∨ ∃ value, first = .ok value ∧ next value = .error cause := by
  cases first with
  | error other =>
    constructor
    · intro h
      cases h
      exact Or.inl rfl
    · rintro (h | ⟨value, h, _⟩)
      · cases h
        rfl
      · cases h
  | ok value =>
    constructor
    · intro h
      exact Or.inr ⟨value, rfl, h⟩
    · rintro (h | ⟨_, h, hnext⟩)
      · cases h
      · cases h
        exact hnext

/-- A choice between two first steps, written with the rest of the computation in both branches. -/
theorem ite_bind {choice : Prop} [Decidable choice] (first other : Except Error α)
    (next : α → Except Error β) :
    (if choice then first >>= next else other >>= next) =
      ((if choice then first else other) >>= next) := by
  by_cases hchoice : choice
  · rw [if_pos hchoice, if_pos hchoice]
  · rw [if_neg hchoice, if_neg hchoice]

theorem error_else_eq_ok_iff {bad : Prop} [Decidable bad] {cause : Error} {rest : Except Error α}
    {result : α} :
    (if bad then .error cause else rest) = .ok result ↔ ¬ bad ∧ rest = .ok result := by
  by_cases hbad : bad
  · rw [if_pos hbad]
    constructor
    · intro h; cases h
    · intro h; exact absurd hbad h.1
  · rw [if_neg hbad, and_iff_right hbad]

end ConcentratedLiquidity
