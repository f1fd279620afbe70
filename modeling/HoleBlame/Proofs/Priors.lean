import HoleBlame.Priors
import Mathlib.Data.List.Basic

/-!
# What is known of the states

What is known of the states changes one entry at a time, and entries that are changed are there
(`Priors.entry_modify`).  Tables of the same size that know the same are equal (`Priors.ext_known`).
-/

namespace HoleBlame

namespace Priors

variable {α : Type} {t u : Priors α} {q r : ℕ} {bound : α}

/-- What is known of a state. -/
def entry (t : Priors α) (q : ℕ) : Prior α :=
  t.entries[q]?.getD ⟨none, false⟩

theorem bound?_eq : t.bound? q = (t.entry q).bound := by
  rw [bound?, entry]
  cases t.entries[q]? <;> rfl

theorem isTarget_eq : t.isTarget q = (t.entry q).isTarget := by
  rw [isTarget, entry]
  cases t.entries[q]? <;> rfl

theorem entry_reserve (size : ℕ) : (t.reserve size).entry r = t.entry r := by
  rw [entry, entry, reserve, Array.getElem?_append]
  split
  · rfl
  · next outside =>
    rw [Array.getElem?_eq_none (Nat.le_of_not_lt outside), Array.getElem?_replicate]
    split <;> rfl

/-- **Changing what is known of a state** changes nothing else, and the table grows as far as it must. -/
theorem entry_modify (f : Prior α → Prior α) :
    (Priors.mk ((t.reserve (q + 1)).entries.modify q f)).entry r =
      if r = q then f (t.entry r) else t.entry r := by
  rw [← entry_reserve (t := t) (q + 1), entry, entry, Array.getElem?_modify]
  by_cases same : r = q
  · subst same
    have inside : r < (t.reserve (r + 1)).entries.size := by
      simp only [reserve, size, Array.size_append, Array.size_replicate]
      omega
    rw [if_pos rfl, if_pos rfl, Array.getElem?_eq_getElem inside]
    rfl
  · rw [if_neg same, if_neg (Ne.symm same)]

theorem entry_setBound : (t.setBound q bound).entry r =
    if r = q then { t.entry r with bound := some bound } else t.entry r :=
  entry_modify _

theorem entry_setTarget : (t.setTarget q).entry r =
    if r = q then { t.entry r with isTarget := true } else t.entry r :=
  entry_modify _

theorem size_setBound (lt : q < t.size) : (t.setBound q bound).size = t.size := by
  simp only [size, setBound, reserve, Array.size_modify, Array.size_append, Array.size_replicate] at lt ⊢
  omega

theorem size_setTarget (lt : q < t.size) : (t.setTarget q).size = t.size := by
  simp only [size, setTarget, reserve, Array.size_modify, Array.size_append, Array.size_replicate] at lt ⊢
  omega

/-- Tables of the same size that know the same are equal. -/
theorem ext_known (same_size : t.size = u.size) (bounds : ∀ q < t.size, t.bound? q = u.bound? q)
    (targets : ∀ q < t.size, t.isTarget q = u.isTarget q) : t = u := by
  obtain ⟨entries⟩ := t
  obtain ⟨entries'⟩ := u
  refine congrArg _ (Array.ext same_size fun q lt lt' => ?_)
  have bound := bounds q lt
  have target := targets q lt
  simp only [bound?, isTarget, Array.getElem?_eq_getElem lt, Array.getElem?_eq_getElem lt',
    Option.bind_some, Option.any_some] at bound target
  generalize entries[q] = known at *
  generalize entries'[q] = known' at *
  cases known
  cases known'
  exact congrArg₂ Prior.mk bound target

end Priors

end HoleBlame
