import HoleBlame.Proofs.Exact
import HoleBlame.Proofs.Verdicts

/-!
# The chains that a shortened chain stands for

A shortened chain stands for every chain that has the transitions and rewards of the member where the
member is expanded (`Chain.Completes`), as long as what is known in advance is true of it
(`Shortcut.StandsFor`): the bounds, also those that are taken where none is known, err in favour of the
property (`Shortcut.StandsFor.favours_boundOf`).

Where the member is expanded, a step of the shortened chain is a step of the other one
(`Shortcut.StandsFor.untilStep_expanded`, `Shortcut.StandsFor.rewardStep_expanded`).  To compare their
values it is therefore enough to look at the states that are not expanded: the values of the one lie
below those of the other as soon as they do so there.
-/

namespace HoleBlame

open scoped ENNReal

variable {n : Nat}

/-- The chain is one that another chain may turn out to be if it is only known in some states. -/
structure Chain.Completes {α : Type} [Scalar α] (c' c : Chain α n) (f : Formula)
    (known : Fin n → Prop) : Prop where
  initial : c'.initial = c.initial
  labelling : c'.labelling = c.labelling
  row : ∀ s, known s → c'.row s = c.row s
  reward : ∀ model, f.model? = some model → ∀ s, known s → c'.rewardAt model s = c.rewardAt model s

theorem Chain.Completes.mono {α : Type} [Scalar α] {c' c : Chain α n} {f : Formula}
    {known fewer : Fin n → Prop} (h : c'.Completes c f known) (fewer_known : ∀ {s}, fewer s → known s) :
    c'.Completes c f fewer :=
  ⟨h.initial, h.labelling, fun s hs => h.row s (fewer_known hs),
    fun model hm s hs => h.reward model hm s (fewer_known hs)⟩

/-- The first value errs in favour of the property if the second one is true: a property that bounds
from above is favoured by smaller values, and one that bounds from below by larger ones. -/
def Property.Favours {α : Type} (p : Property α) (x y : EReal) : Prop :=
  if p.isSafety then x ≤ y else y ≤ x

namespace Property

variable {p : Property EReal} {x : EReal} {v : ℝ≥0∞}

/-- A bound on a probability errs in favour of a property also if it is moved into the unit interval. -/
theorem Favours.clampUnit (hv : v ≤ 1) (h : p.Favours x v) : p.Favours (Scalar.clampUnit x) v := by
  have le_one : (v : EReal) ≤ 1 := EReal.coe_ennreal_le_coe_ennreal_iff.mpr hv
  unfold Favours Scalar.clampUnit at *
  by_cases safety : p.isSafety = true
  · rw [if_pos safety] at h ⊢
    split
    · exact EReal.coe_ennreal_nonneg v
    · split
      · next above => exact (le_of_lt above).trans h
      · exact h
  · rw [if_neg safety] at h ⊢
    split
    · next below => exact h.trans (le_of_lt below)
    · split
      · exact le_one
      · exact h

/-- What is trivially right errs in favour of a property. -/
theorem favours_trivial {kind : BoundKind} (hv : kind = .probability → v ≤ 1) :
    p.Favours (kind.trivial p.isSafety) v := by
  unfold Favours BoundKind.trivial
  by_cases safety : p.isSafety = true
  · rw [if_pos safety, if_pos safety]
    exact EReal.coe_ennreal_nonneg v
  · rw [if_neg safety, if_neg safety]
    cases kind with
    | probability => exact EReal.coe_ennreal_le_coe_ennreal_iff.mpr (hv rfl)
    | reward => exact le_top

end Property

namespace Shortcut

/-! ## Values on a shortened chain -/

section Extend

variable {β : Type} {v : Fin n → β} {x y : β}

/-- A value on the states of a member with values for the sinks. -/
def extend (v : Fin n → β) (atFalse atTrue : β) (y : Fin (n + 2)) : β :=
  if h : y.val < n then v ⟨y, h⟩ else if y.val = n then atFalse else atTrue

@[simp] theorem extend_lift (s : Fin n) : extend v x y (lift s) = v s :=
  dif_pos s.isLt

@[simp] theorem extend_sinkFalse : extend v x y (sinkFalse n) = x := by
  simp [extend, sinkFalse]

@[simp] theorem extend_sinkTrue : extend v x y (sinkTrue n) = y := by
  simp [extend, sinkTrue]

end Extend

variable {m : Member EReal n} {priors : Priors EReal} {p : Property EReal} {target : StateSet n}
  {x : Shortcut EReal n} {c' : Chain EReal n} {s : Fin n}

/-- A shortened chain stands for a chain that completes the member, and what is known in advance is true
of this chain. -/
structure StandsFor (x : Shortcut EReal n) (m : Member EReal n) (priors : Priors EReal)
    (p : Property EReal) (target : StateSet n) (c' : Chain EReal n) : Prop where
  shortens : x.Shortens m priors p target
  constraint : p.formula.constraint? ≠ some targetLabel
  completes : c'.Completes m.chain p.formula (· ∈ x.expanded)
  exact : c'.Exact
  targets : ∀ s, priors.isTarget (m.quotientState.get s) = true →
    c'.labelling.has s p.formula.target = true
  bounds : ∀ s bound, priors.bound? (m.quotientState.get s) = some bound →
    p.Favours bound (c'.exactValue p.formula s)

/-- The bound of a state that is not expanded. -/
noncomputable abbrev boundOf (m : Member EReal n) (priors : Priors EReal) (p : Property EReal)
    (s : Fin n) : EReal :=
  (bounds m priors p.formula.kind p.isSafety).get s

theorem boundOf_eq : boundOf m priors p s =
    ((priors.bound? (m.quotientState.get s)).map p.formula.kind.adjust).getD
      (p.formula.kind.trivial p.isSafety) := by
  simp [boundOf, Shortcut.bounds, get_eq_getElem]

theorem clampUnit_mem_unit (q : EReal) : 0 ≤ Scalar.clampUnit q ∧ Scalar.clampUnit q ≤ 1 := by
  unfold Scalar.clampUnit
  split
  · exact ⟨le_rfl, zero_le_one⟩
  · next h =>
    split
    · exact ⟨zero_le_one, le_rfl⟩
    · next h' => exact ⟨not_lt.mp h, not_lt.mp h'⟩

theorem boundOf_mem_unit (hk : p.formula.kind = .probability) :
    0 ≤ boundOf m priors p s ∧ boundOf m priors p s ≤ 1 := by
  rw [boundOf_eq, hk]
  cases priors.bound? (m.quotientState.get s) with
  | some bound => exact clampUnit_mem_unit bound
  | none =>
    rw [Option.map_none, Option.getD_none, BoundKind.trivial]
    split
    · exact ⟨le_rfl, zero_le_one⟩
    · exact ⟨zero_le_one, le_rfl⟩

theorem toENNReal_one : (1 : EReal).toENNReal = 1 :=
  EReal.toENNReal_coe (x := 1)

/-- Transitions of probability zero may be left out. -/
theorem sum_detour {v : Fin (n + 2) → ℝ≥0∞} (q : EReal) :
    ((detour .probability q).map fun e => e.prob.toENNReal * v e.next).sum =
      (1 - q).toENNReal * v (sinkFalse n) + q.toENNReal * v (sinkTrue n) := by
  have toFalse : (((if q < 1 then [⟨sinkFalse n, 1 - q⟩] else []) : List (Edge EReal (n + 2))).map
      fun e => e.prob.toENNReal * v e.next).sum = (1 - q).toENNReal * v (sinkFalse n) := by
    by_cases hq : q < 1
    · rw [if_pos hq, List.map_singleton, List.sum_singleton]
    · rw [if_neg hq, EReal.toENNReal_of_nonpos (EReal.sub_nonpos.mpr (not_lt.mp hq)), zero_mul,
        List.map_nil, List.sum_nil]
  have toTrue : (((if 0 < q then [⟨sinkTrue n, q⟩] else []) : List (Edge EReal (n + 2))).map
      fun e => e.prob.toENNReal * v e.next).sum = q.toENNReal * v (sinkTrue n) := by
    by_cases hq : 0 < q
    · rw [if_pos hq, List.map_singleton, List.sum_singleton]
    · rw [if_neg hq, EReal.toENNReal_of_nonpos (not_lt.mp hq), zero_mul, List.map_nil,
        List.sum_nil]
  rw [← toFalse, ← toTrue, ← List.sum_append, ← List.map_append]
  rfl

namespace StandsFor

variable (h : x.StandsFor m priors p target c')
include h

theorem target_lift : x.goal.target (lift s) ↔
    (p.formula.goal c'.labelling).target s := by
  rw [h.shortens.target_lift, ← h.completes.labelling]
  constructor
  · rintro (ht | ht)
    · exact ht
    · exact h.targets s ht
  · exact .inl

theorem allowed_lift : x.goal.allowed (lift s) ↔
    (p.formula.goal c'.labelling).allowed s := by
  rw [h.shortens.allowed_lift h.constraint, ← h.completes.labelling]

/-! ## Means in a shortened chain -/

variable {v : Fin (n + 2) → ℝ≥0∞}

theorem mean_expanded (hs : s ∈ x.expanded) :
    x.chain.mean v (lift s) = c'.mean (fun t => v (lift t)) s := by
  rw [Chain.mean, Chain.mean, h.shortens.row_lift, if_pos hs, exactRow, h.completes.row s hs,
    List.map_map]
  rfl

theorem mean_sinkFalse : x.chain.mean v (sinkFalse n) = v (sinkFalse n) := by
  rw [Chain.mean, h.shortens.row_sinkFalse, List.map_singleton, List.sum_singleton, toENNReal_one,
    one_mul]

theorem mean_sinkTrue : x.chain.mean v (sinkTrue n) = v (sinkTrue n) := by
  rw [Chain.mean, h.shortens.row_sinkTrue, List.map_singleton, List.sum_singleton, toENNReal_one,
    one_mul]

theorem mean_reward (hk : p.formula.kind = .reward) (hs : s ∉ x.expanded) :
    x.chain.mean v (lift s) = v (sinkTrue n) := by
  rw [Chain.mean, h.shortens.row_lift, if_neg hs, hk, detour, List.map_singleton,
    List.sum_singleton, toENNReal_one, one_mul]

theorem mean_probability (hk : p.formula.kind = .probability) (hs : s ∉ x.expanded) :
    x.chain.mean v (lift s) = (1 - boundOf m priors p s).toENNReal * v (sinkFalse n)
      + (boundOf m priors p s).toENNReal * v (sinkTrue n) := by
  rw [Chain.mean, h.shortens.row_lift, if_neg hs, ← sum_detour, boundOf, hk]

/-- What is known in advance and what is trivially right err in favour of the property. -/
theorem favours_boundOf : p.Favours (boundOf m priors p s) (c'.exactValue p.formula s) := by
  rw [boundOf_eq]
  cases hb : priors.bound? (m.quotientState.get s) with
  | some bound =>
    have given := h.bounds s bound hb
    cases hk : p.formula.kind with
    | probability => exact given.clampUnit (h.exact.exactValue_le_one hk s)
    | reward => exact given
  | none => exact Property.favours_trivial fun hk => h.exact.exactValue_le_one hk s

/-- The rows of a shortened chain add up to at most one. -/
theorem mean_one_le (y : Fin (n + 2)) : x.chain.mean (fun _ => 1) y ≤ 1 := by
  rcases lift_or_sink y with ⟨s, rfl⟩ | rfl | rfl
  · by_cases hs : s ∈ x.expanded
    · rw [h.mean_expanded hs]
      exact (h.exact.mean_one s).le
    · cases hk : p.formula.kind with
      | reward => exact (h.mean_reward hk hs).le
      | probability =>
        have ⟨nonneg, le_one⟩ : 0 ≤ boundOf m priors p s ∧ _ := boundOf_mem_unit hk
        rw [h.mean_probability hk hs, mul_one, mul_one, EReal.toENNReal_sub nonneg, toENNReal_one]
        exact (tsub_add_cancel_of_le (toENNReal_one ▸ EReal.toENNReal_le_toENNReal le_one)).le
  · exact h.mean_sinkFalse.le
  · exact h.mean_sinkTrue.le

/-! ## Steps in a shortened chain -/

theorem untilStep_expanded (hs : s ∈ x.expanded) :
    x.chain.untilStep x.goal v (lift s) =
      c'.untilStep (p.formula.goal c'.labelling) (fun t => v (lift t)) s := by
  classical
  exact if_congr h.target_lift rfl (if_congr h.allowed_lift (h.mean_expanded hs) rfl)

/-- Probabilities in a shortened chain lie below values of the states of the member that a step does not
raise. -/
theorem untilProb_lift_le {u : Fin n → ℝ≥0∞}
    (hu : ∀ s, x.chain.untilProb x.goal (lift s) ≤ u s ∨
      x.chain.untilStep x.goal (extend u 0 1) (lift s) ≤ u s)
    (s : Fin n) : x.chain.untilProb x.goal (lift s) ≤ u s := by
  rw [← extend_lift (v := u) (x := 0) (y := 1) s]
  refine Chain.untilProb_le (fun y => ?_) (lift s)
  rcases lift_or_sink y with ⟨t, rfl⟩ | rfl | rfl
  · rw [extend_lift]
    exact hu t
  · right
    rw [Chain.untilStep, if_neg h.shortens.not_target_sinkFalse, h.mean_sinkFalse, extend_sinkFalse,
      ite_self]
  · right
    rw [Chain.untilStep_target h.shortens.target_sinkTrue, extend_sinkTrue]

/-- Probabilities in the true chain lie below those in a shortened chain if they do in the states that
are not expanded and where the goal is still open. -/
theorem untilProb_le_lift
    (hu : ∀ s ∉ x.expanded, ¬ x.goal.target (lift s) → x.goal.allowed (lift s) →
      c'.untilProb (p.formula.goal c'.labelling) s ≤ x.chain.untilProb x.goal (lift s))
    (s : Fin n) :
    c'.untilProb (p.formula.goal c'.labelling) s ≤ x.chain.untilProb x.goal (lift s) := by
  refine Chain.untilProb_le (v := fun s => x.chain.untilProb x.goal (lift s)) (fun s => ?_) s
  by_cases hs : s ∈ x.expanded
  · right
    rw [← h.untilStep_expanded hs, Chain.untilStep_untilProb]
  · by_cases ht : x.goal.target (lift s)
    · right
      rw [Chain.untilStep_target (h.target_lift.mp ht), Chain.untilProb_target ht]
    · by_cases ha : x.goal.allowed (lift s)
      · left
        exact hu s hs ht ha
      · right
        rw [Chain.untilStep_excluded (h.target_lift.not.mp ht) (h.allowed_lift.not.mp ha)]
        exact zero_le

variable {model : String} (hm : p.formula.model? = some model)
include hm

theorem rewardOf_expanded (hs : s ∈ x.expanded) :
    x.chain.rewardOf model (lift s) = c'.rewardOf model s := by
  rw [Chain.rewardOf, h.shortens.rewardAt_lift hm, if_pos hs, ← h.completes.reward model hm s hs,
    Chain.rewardOf]

theorem rewardOf_unexpanded (hs : s ∉ x.expanded) :
    x.chain.rewardOf model (lift s) = (boundOf m priors p s).toENNReal := by
  rw [Chain.rewardOf, h.shortens.rewardAt_lift hm, if_neg hs]

theorem rewardOf_sinkFalse : x.chain.rewardOf model (sinkFalse n) = 0 := by
  rw [Chain.rewardOf, h.shortens.rewardAt_sinkFalse hm]
  exact EReal.toENNReal_zero

theorem rewardStep_expanded (hs : s ∈ x.expanded) :
    x.chain.rewardStep x.goal (x.chain.rewardOf model) v (lift s) =
      c'.rewardStep (p.formula.goal c'.labelling) (c'.rewardOf model) (fun t => v (lift t)) s := by
  classical
  refine if_congr h.target_lift rfl ?_
  rw [h.rewardOf_expanded hm hs, h.mean_expanded hs]

/-- Rewards in a shortened chain lie below values of the states of the member that a step does not
raise. -/
theorem totalReward_lift_le {u : Fin n → ℝ≥0∞}
    (hu : ∀ s, x.chain.rewardStep x.goal (x.chain.rewardOf model) (extend u 0 0) (lift s) ≤ u s)
    (s : Fin n) : x.chain.totalReward x.goal (x.chain.rewardOf model) (lift s) ≤ u s := by
  rw [← extend_lift (v := u) (x := 0) (y := 0) s]
  refine Chain.totalReward_le (fun y => .inr ?_) (lift s)
  rcases lift_or_sink y with ⟨t, rfl⟩ | rfl | rfl
  · rw [extend_lift]
    exact hu t
  · rw [Chain.rewardStep_of_not_target h.shortens.not_target_sinkFalse, h.mean_sinkFalse,
      extend_sinkFalse, h.rewardOf_sinkFalse hm, add_zero]
  · rw [Chain.rewardStep_target h.shortens.target_sinkTrue]
    exact zero_le

/-- Rewards in the true chain lie below expected rewards in a shortened chain if they do in the states
that are not expanded. -/
theorem totalReward_le_lift
    (hu : ∀ s ∉ x.expanded, c'.totalReward (p.formula.goal c'.labelling) (c'.rewardOf model) s ≤
      x.chain.expectedReward x.goal (x.chain.rewardOf model) (lift s))
    (s : Fin n) : c'.totalReward (p.formula.goal c'.labelling) (c'.rewardOf model) s ≤
      x.chain.expectedReward x.goal (x.chain.rewardOf model) (lift s) := by
  refine Chain.totalReward_le
    (v := fun s => x.chain.expectedReward x.goal (x.chain.rewardOf model) (lift s)) (fun s => ?_) s
  by_cases hs : s ∈ x.expanded
  · right
    rw [← h.rewardStep_expanded hm hs]
    exact Chain.rewardStep_expectedReward_le h.mean_one_le
  · left
    exact hu s hs

end StandsFor

end Shortcut

end HoleBlame
