import HoleBlame.Shortcut
import HoleBlame.Proofs.Chances
import HoleBlame.Proofs.Labellings

/-!
# The labels of a shortened chain

A shortened chain has the labels of the member, one more name for the states that count as target, and two
sinks.  A state of the member carries the labels it has in the member (`Shortcut.has_lift`), and the label of
the states that count as target marks the targets, the states known to be targets, and one sink.
-/

namespace HoleBlame

variable {α : Type} {n : Nat}

namespace Shortcut

variable {m : Member α n} {priors : Priors α} {target : StateSet n} {name : String} {s : Fin n}

/-! ## The states of a shortened chain -/

@[simp] theorem lift_val (s : Fin n) : (lift s).val = s.val := rfl

theorem lift_injective {s t : Fin n} (h : lift s = lift t) : s = t := by
  have := congrArg Fin.val h
  exact Fin.ext this

theorem lift_ne_sinkFalse (s : Fin n) : lift s ≠ sinkFalse n :=
  fun h => absurd (congrArg Fin.val h) (Nat.ne_of_lt s.isLt)

theorem lift_ne_sinkTrue (s : Fin n) : lift s ≠ sinkTrue n :=
  fun h => absurd (congrArg Fin.val h) (Nat.ne_of_lt (Nat.lt_succ_of_lt s.isLt))

theorem sinkFalse_ne_sinkTrue : sinkFalse n ≠ sinkTrue n :=
  fun h => absurd (congrArg Fin.val h) (Nat.ne_of_lt (Nat.lt_succ_self n))

/-- A state of a shortened chain is a state of the member or a sink. -/
theorem lift_or_sink (x : Fin (n + 2)) : (∃ s : Fin n, x = lift s) ∨ x = sinkFalse n ∨
    x = sinkTrue n := by
  rcases Nat.lt_or_ge x.val n with h | h
  · exact .inl ⟨⟨x.val, h⟩, rfl⟩
  · have := x.isLt
    rcases Nat.eq_or_lt_of_le h with h | h
    · exact .inr (.inl (Fin.ext h.symm))
    · exact .inr (.inr (Fin.ext (show x.val = n + 1 by omega)))

/-! ## Their labels -/

theorem mem_targets_lift : lift s ∈ targets m priors target ↔
    s ∈ target ∨ priors.isTarget (m.quotientState.get s) = true := by
  have : (⟨(lift s).val, s.isLt⟩ : Fin n) = s := rfl
  simp [targets, lift_ne_sinkTrue]

theorem sinkTrue_mem_targets : sinkTrue n ∈ targets m priors target := by
  simp [targets]

theorem sinkFalse_not_mem_targets : sinkFalse n ∉ targets m priors target := by
  rw [targets, StateSet.mem_insert, StateSet.mem_widen]
  rintro (h | ⟨h, _⟩)
  · exact sinkFalse_ne_sinkTrue h
  · exact Nat.lt_irrefl n h

/-- **A state of the member keeps its labels**, that of the states that count as target apart. -/
theorem has_lift (h : name ≠ targetLabel) :
    (labelling m priors target).has (lift s) name = m.chain.labelling.has s name := by
  rw [Bool.eq_iff_iff, labelling, Labelling.has_set, if_neg h, Labelling.has_add,
    Labelling.has_add, Labelling.has_widen]
  simp [lift_ne_sinkFalse, lift_ne_sinkTrue]

theorem has_targetLabel {x : Fin (n + 2)} : (labelling m priors target).has x targetLabel = true ↔
    x ∈ targets m priors target := by
  rw [labelling, Labelling.has_set, if_pos rfl]

theorem isSome_get?_labelling (h : (m.chain.labelling.get? name).isSome = true) :
    ((labelling m priors target).get? name).isSome = true := by
  refine Labelling.isSome_get?_update (Labelling.isSome_get?_update (Labelling.isSome_get?_update ?_))
  rw [Labelling.get?_widen, Option.isSome_map]
  exact h

theorem isSome_get?_targetLabel :
    ((labelling m priors target).get? targetLabel).isSome = true := by
  rw [labelling, Labelling.set, Labelling.get?_update, if_pos rfl]
  rfl

end Shortcut

end HoleBlame
