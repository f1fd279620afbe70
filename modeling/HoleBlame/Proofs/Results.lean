/-!
# Results that may be errors

A result is known when it has been computed, and a result in steps when the results of the steps are.  Errors
are translated step by step, too.
-/

namespace HoleBlame

variable {ε α β : Type}

theorem eq_ok_of_toOption {result : Except ε β} {value : β} (h : result.toOption = some value) :
    result = .ok value := by
  cases result with
  | error error => cases h
  | ok value => rw [Option.some.inj h]

theorem exists_of_bind_eq_ok {first : Except ε α} {next : α → Except ε β} {value : β}
    (h : first >>= next = .ok value) : ∃ a, first = .ok a ∧ next a = .ok value := by
  cases first with
  | error error => cases h
  | ok a => exact ⟨a, rfl, h⟩

theorem map_eq_error_iff {result : Except ε α} {f : α → β} {error : ε} :
    result.map f = .error error ↔ result = .error error := by
  cases result with
  | error other => simp [Except.map]
  | ok a => simp [Except.map]

theorem bind_eq_error_iff {first : Except ε α} {next : α → Except ε β} {error : ε} :
    first >>= next = .error error ↔
      first = .error error ∨ ∃ a, first = .ok a ∧ next a = .error error := by
  cases first with
  | error other => simp [bind, Except.bind]
  | ok a => simp [bind, Except.bind]

theorem bind_eq_mapError {ε' : Type} {translate : ε → ε'} {first : Except ε α} {first' : Except ε' α}
    {next : α → Except ε β} {next' : α → Except ε' β} (h : first' = first.mapError translate)
    (h' : ∀ a, next' a = (next a).mapError translate) :
    first' >>= next' = (first >>= next).mapError translate := by
  subst h
  cases first with
  | error error => rfl
  | ok a => exact h' a

end HoleBlame
