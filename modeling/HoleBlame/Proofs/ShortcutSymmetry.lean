import HoleBlame.Proofs.Renumbering
import HoleBlame.Proofs.Shortening

/-!
# Shortening does not depend on the numbers of states

The states of a shortened chain get new numbers along with those of the member, but the sinks stay behind
them (`Shortcut.withSinks`).  Then shortening a member under new numbers gives the shortened chain under new
numbers (`Shortcut.ofMember_renumber`), and so it remains when states are expanded
(`Shortcut.expand_renumber`).

If several bounds make no sense, the one of the state with the smallest number is refused, and this may be
another one under new numbers.  Errors are therefore compared up to that (`ShortcutError.Alike`).
-/

namespace HoleBlame

variable {α : Type} {n : Nat} {σ : Equiv.Perm (Fin n)}

/-- The errors agree but for the state and the bound that they name. -/
inductive ShortcutError.Alike : ShortcutError α → ShortcutError α → Prop where
  | refl (error : ShortcutError α) : Alike error error
  | invalidBound (state state' : Nat) (bound bound' : α) (kind : BoundKind) :
    Alike (.invalidBound state bound kind) (.invalidBound state' bound' kind)

namespace Shortcut

/-! ## The states of a shortened chain -/

/-- New numbers for the states of a shortened chain.  The sinks keep theirs. -/
def withSinks (σ : Equiv.Perm (Fin n)) : Equiv.Perm (Fin (n + 2)) :=
  finSumFinEquiv.permCongr (Equiv.sumCongr σ (Equiv.refl (Fin 2)))

@[simp] theorem withSinks_lift (s : Fin n) : withSinks σ (lift s) = lift (σ s) := by
  simp [withSinks, lift, Equiv.permCongr_apply]

@[simp] theorem withSinks_sinkFalse : withSinks σ (sinkFalse n) = sinkFalse n := by
  have : sinkFalse n = Fin.natAdd n (0 : Fin 2) := rfl
  simp [withSinks, this, Equiv.permCongr_apply]

@[simp] theorem withSinks_sinkTrue : withSinks σ (sinkTrue n) = sinkTrue n := by
  have : sinkTrue n = Fin.natAdd n (1 : Fin 2) := rfl
  simp [withSinks, this, Equiv.permCongr_apply]

theorem append_renumber {β : Type} (u : Vector β n) (v : Vector β 2) :
    (renumber σ u).append v = renumber (withSinks σ) (u.append v) := by
  refine eq_renumber fun y => ?_
  obtain ⟨s, rfl⟩ | rfl | rfl := lift_or_sink y
  · rw [withSinks_lift, get_append_lift, get_append_lift, get_renumber]
  · rw [withSinks_sinkFalse, get_append_sinkFalse, get_append_sinkFalse]
  · rw [withSinks_sinkTrue, get_append_sinkTrue, get_append_sinkTrue]

theorem assign_lift_renumber {β : Type} (table : Vector β (n + 2)) (s : Fin n) (x : β) :
    assign (renumber (withSinks σ) table) (lift (σ s)) x =
      renumber (withSinks σ) (assign table (lift s) x) := by
  rw [← withSinks_lift, assign_renumber]

theorem widen_renumber (S : StateSet n) :
    (S.renumber σ).widen (n + 2) = (S.widen (n + 2)).renumber (withSinks σ) := by
  have lift_mem (T : StateSet n) (s : Fin n) : lift s ∈ T.widen (n + 2) ↔ s ∈ T := by
    have : (⟨(lift s).val, s.isLt⟩ : Fin n) = s := rfl
    simp
  have beyond {y : Fin (n + 2)} (hy : n ≤ y.val) (T : StateSet n) : y ∉ T.widen (n + 2) := by
    rw [StateSet.mem_widen]
    rintro ⟨hlt, -⟩
    omega
  refine StateSet.eq_renumber fun y => ?_
  obtain ⟨s, rfl⟩ | rfl | rfl := lift_or_sink y
  · rw [withSinks_lift, lift_mem, lift_mem, StateSet.mem_renumber]
  · have out : n ≤ (sinkFalse n).val := Nat.le_refl n
    rw [withSinks_sinkFalse]
    exact iff_of_false (beyond out _) (beyond out _)
  · have out : n ≤ (sinkTrue n).val := Nat.le_succ n
    rw [withSinks_sinkTrue]
    exact iff_of_false (beyond out _) (beyond out _)

theorem widen_labelling_renumber (L : Labelling n) :
    (L.renumber σ).widen (n + 2) = (L.widen (n + 2)).renumber (withSinks σ) := by
  refine Labelling.ext_get? rfl fun name => ?_
  rw [Labelling.get?_widen, Labelling.get?_renumber, Labelling.get?_renumber, Labelling.get?_widen,
    Option.map_map, Option.map_map]
  simp only [Function.comp_def, widen_renumber]

/-- The same shortened chain under new numbers of the states. -/
def renumber (σ : Equiv.Perm (Fin n)) (x : Shortcut α n) : Shortcut α n where
  source := x.source.renumber σ
  property := x.property
  chain := x.chain.renumber (withSinks σ)
  expanded := x.expanded.renumber σ
  numExpanded := x.numExpanded
  numTransitions := x.numTransitions

/-! ## Shortening -/

section Shortening

variable {m : Member α n} {priors : Priors α} {target : StateSet n}

theorem targets_renumber : targets (m.renumber σ) priors (target.renumber σ) =
    (targets m priors target).renumber (withSinks σ) := by
  refine StateSet.eq_renumber fun y => ?_
  obtain ⟨s, rfl⟩ | rfl | rfl := lift_or_sink y
  · rw [withSinks_lift, mem_targets_lift, mem_targets_lift, StateSet.mem_renumber, Member.renumber,
      get_renumber]
  · rw [withSinks_sinkFalse]
    exact iff_of_false sinkFalse_not_mem_targets sinkFalse_not_mem_targets
  · rw [withSinks_sinkTrue]
    exact iff_of_true sinkTrue_mem_targets sinkTrue_mem_targets

theorem labelling_renumber : labelling (m.renumber σ) priors (target.renumber σ) =
    (labelling m priors target).renumber (withSinks σ) := by
  have widen : (m.renumber σ).chain.labelling.widen (n + 2) =
      (m.chain.labelling.widen (n + 2)).renumber (withSinks σ) := widen_labelling_renumber _
  rw [labelling, targets_renumber, widen, labelling, ← Labelling.set_renumber,
    ← Labelling.add_renumber, ← Labelling.add_renumber, withSinks_sinkFalse, withSinks_sinkTrue]

variable [Scalar α] {p : Property α}

theorem bounds_renumber (kind : BoundKind) (safety : Bool) :
    bounds (m.renumber σ) priors kind safety = HoleBlame.renumber σ (bounds m priors kind safety) :=
  map_renumber _ _

theorem detour_renumber (kind : BoundKind) (bound : α) :
    (detour kind bound).map (Edge.renumber (withSinks σ)) = detour kind bound := by
  cases kind with
  | probability =>
    rw [detour, List.map_append]
    congr 1
    · split <;> simp [Edge.renumber]
    · split <;> simp [Edge.renumber]
  | reward => simp [detour, Edge.renumber]

theorem detours_renumber (kind : BoundKind) (model : Option String) :
    detours (m.renumber σ) priors p (target.renumber σ) kind model =
      (detours m priors p target kind model).renumber (withSinks σ) := by
  refine Chain.eq_renumber ?initial ?row labelling_renumber ?reward
  case initial => exact (withSinks_lift _).symm
  case row =>
    intro y
    obtain ⟨s, rfl⟩ | rfl | rfl := lift_or_sink y
    · rw [withSinks_lift, row_detours_lift, row_detours_lift, detour_renumber, bounds_renumber,
        get_renumber]
    · rw [withSinks_sinkFalse, row_detours_sinkFalse, row_detours_sinkFalse]
      simp [Edge.renumber]
    · rw [withSinks_sinkTrue, row_detours_sinkTrue, row_detours_sinkTrue]
      simp [Edge.renumber]
  case reward =>
    simp only [detours, bounds_renumber, append_renumber, Option.map_map]
    rfl

/-- Whether some bound makes no sense does not depend on the numbers. -/
theorem refused?_renumber (kind : BoundKind) :
    (refused? (m.renumber σ) priors kind).isSome = (refused? m priors kind).isSome := by
  have refused_iff (m : Member α n) : (refused? m priors kind).isSome = true ↔
      ∃ s, ((priors.bound? (m.quotientState.get s)).filter fun bound =>
        !kind.accepts bound).isSome = true := by
    rw [refused?, List.findSome?_isSome_iff]
    constructor
    · rintro ⟨q, hq, refused⟩
      obtain ⟨s, hs, rfl⟩ := Vector.mem_iff_getElem.mp (Vector.mem_toList_iff.mp hq)
      rw [Option.isSome_map] at refused
      exact ⟨⟨s, hs⟩, refused⟩
    · rintro ⟨s, refused⟩
      refine ⟨m.quotientState.get s, Vector.mem_toList_iff.mpr (Vector.getElem_mem s.isLt), ?_⟩
      rw [Option.isSome_map]
      exact refused
  rw [Bool.eq_iff_iff, refused_iff, refused_iff, ← σ.exists_congr_right]
  simp only [Member.renumber, get_renumber]

theorem unexpanded_renumber (kind : BoundKind) (model : Option String) :
    Likewise ShortcutError.Alike (renumber σ) (unexpanded m priors p target kind model)
      (unexpanded (m.renumber σ) priors p (target.renumber σ) kind model) := by
  have refused : (refused? (m.renumber σ) priors kind).isSome = (refused? m priors kind).isSome :=
    refused?_renumber kind
  cases hr : refused? m priors kind with
  | some r =>
    rw [hr] at refused
    obtain ⟨r', hr'⟩ := Option.isSome_iff_exists.mp refused
    unfold unexpanded
    rw [hr, hr']
    exact .error (.invalidBound ..)
  | none =>
    rw [hr] at refused
    have hr' := Option.not_isSome_iff_eq_none.mp (Bool.eq_false_iff.mp refused)
    rw [unexpanded_eq_ok hr, unexpanded_eq_ok hr', detours_renumber, Chain.numTransitions_renumber]
    refine .ok_of_eq ?_
    rw [renumber, StateSet.renumber_empty]
    rfl

theorem ofMember_renumber : Likewise ShortcutError.Alike (renumber σ) (ofMember m priors p)
    (ofMember (m.renumber σ) priors p) := by
  have labelled (name : String) : (m.renumber σ).chain.labelling.get? name =
      (m.chain.labelling.get? name).map (·.renumber σ) := Labelling.get?_renumber
  have modelled (name : String) : (m.renumber σ).chain.rewardModel? name =
      (m.chain.rewardModel? name).map (RewardModel.renumber σ) := Chain.rewardModel?_renumber
  unfold ofMember
  rw [labelled]
  cases m.chain.labelling.get? p.formula.target with
  | none => exact .error (.refl _)
  | some target =>
    simp only [Option.map_some]
    obtain ⟨formula, bound⟩ := p
    cases formula with
    | probability constraint label =>
      cases constraint with
      | none => exact unexpanded_renumber _ _
      | some constraint =>
        simp only [labelled, Option.isNone_map]
        split
        · exact .error (.refl _)
        · exact unexpanded_renumber _ _
    | reward model label =>
      simp only [modelled, Option.isNone_map]
      split
      · exact .error (.refl _)
      · exact unexpanded_renumber _ _

end Shortening

/-! ## Expanding -/

section Expanding

variable {c : Chain α n} {s : Fin n}

theorem exactRow_renumber :
    exactRow (c.renumber σ) (σ s) = (exactRow c s).map (Edge.renumber (withSinks σ)) := by
  simp only [exactRow, Chain.row_renumber, List.map_map, Function.comp_def, Edge.renumber,
    withSinks_lift]

variable [Scalar α] {x : Shortcut α n}

theorem exactReward_renumber (model : RewardModel α (n + 2)) :
    exactReward (c.renumber σ) (σ s) (model.renumber (withSinks σ)) =
      (exactReward c s model).renumber (withSinks σ) := by
  have reward : ((c.renumber σ).rewardModel? model.name).elim 0 (fun exact => exact.rewards.get (σ s)) =
      (c.rewardModel? model.name).elim 0 fun exact => exact.rewards.get s := by
    rw [Chain.rewardModel?_renumber]
    cases c.rewardModel? model.name with
    | none => rfl
    | some exact => exact get_renumber exact.rewards s
  simp only [exactReward, RewardModel.renumber, reward, assign_lift_renumber]

theorem exactAt_renumber (shortened : Chain α (n + 2)) :
    exactAt (c.renumber σ) (σ s) (shortened.renumber (withSinks σ)) =
      (exactAt c s shortened).renumber (withSinks σ) := by
  refine Chain.eq_renumber rfl ?row rfl ?reward
  case row =>
    intro y
    have same : withSinks σ y = lift (σ s) ↔ y = lift s := by
      rw [← withSinks_lift, (withSinks σ).injective.eq_iff]
    rw [row_exactAt, row_exactAt, exactRow_renumber, Chain.row_renumber]
    by_cases hy : y = lift s
    · rw [if_pos hy, if_pos (same.mpr hy)]
    · rw [if_neg hy, if_neg (hy ∘ same.mp)]
  case reward =>
    simp only [exactAt, Chain.renumber]
    cases shortened.reward with
    | none => rfl
    | some model => exact congrArg some (exactReward_renumber model)

/-- **Expanding a state under new numbers is expanding the same state.** -/
theorem expandState_renumber : (x.renumber σ).expandState (σ s) = (x.expandState s).renumber σ := by
  have mem : σ s ∈ (x.renumber σ).expanded ↔ s ∈ x.expanded := StateSet.mem_renumber
  have row : (x.renumber σ).chain.row (lift (σ s)) =
      (x.chain.row (lift s)).map (Edge.renumber (withSinks σ)) := by
    rw [← withSinks_lift]
    exact Chain.row_renumber
  by_cases hs : s ∈ x.expanded
  · rw [expandState_of_mem hs, expandState_of_mem (mem.mpr hs)]
  · rw [expandState_of_not_mem hs, expandState_of_not_mem (hs ∘ mem.mp), row, List.length_map]
    simp only [renumber, exactAt_renumber, StateSet.insert_renumber, exactRow_renumber,
      List.length_map]

theorem expand_renumber (states : List (Fin n)) :
    (x.renumber σ).expand (states.map σ) = (x.expand states).renumber σ := by
  induction states generalizing x with
  | nil => rfl
  | cons s rest ih =>
    rw [List.map_cons, expand, List.foldl_cons, expandState_renumber]
    exact ih

end Expanding

end Shortcut

end HoleBlame
