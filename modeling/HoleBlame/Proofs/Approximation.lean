import HoleBlame.Proofs.Completion

/-!
# Shortened chains approximate

The exact values of a shortened chain err in favour of the property, whichever of the chains it stands
for is the true one: from below for properties that bound from above, and from above for properties that
bound from below (`Shortcut.exactValue_favours`).

For probabilities this follows from the bounds of the states that are not expanded.  Expected rewards
need a word more, because they are infinite where the target may be missed.  From a state that is not
expanded a shortened chain surely gets to a sink that counts as target, so the target is only missed
where it is missed in the true chain (`Shortcut.StandsFor.sure_lift`).  Conversely, where the expected
reward of the shortened chain is finite, no run gets to a state where it is not, and the true chain does
not miss the target either (`Shortcut.StandsFor.sure_of_finite`).
-/

namespace HoleBlame

open scoped ENNReal

variable {n : Nat}

namespace Property

variable {p : Property EReal} {x : EReal} {v w : ℝ≥0∞}

theorem Favours.toENNReal_le (safety : p.isSafety = true) (h : p.Favours x v) :
    x.toENNReal ≤ v := by
  rw [Favours, if_pos safety] at h
  have := EReal.toENNReal_le_toENNReal h
  rwa [EReal.toENNReal_coe] at this

theorem Favours.le_toENNReal (liveness : ¬ p.isSafety = true) (h : p.Favours x v) :
    v ≤ x.toENNReal := by
  rw [Favours, if_neg liveness] at h
  have := EReal.toENNReal_le_toENNReal h
  rwa [EReal.toENNReal_coe] at this

theorem favours_of_cases (safety : p.isSafety = true → v ≤ w) (liveness : ¬ p.isSafety = true → w ≤ v) :
    p.Favours v w := by
  unfold Favours
  split
  · next h => exact EReal.coe_ennreal_le_coe_ennreal_iff.mpr (safety h)
  · next h => exact EReal.coe_ennreal_le_coe_ennreal_iff.mpr (liveness h)

end Property

namespace Shortcut

variable {m : Member EReal n} {priors : Priors EReal} {p : Property EReal} {target : StateSet n}
  {x : Shortcut EReal n} {c' : Chain EReal n} {s : Fin n}

open Classical in
/-- The probability in the true chain where a shortened chain has a finite expected reward, and one
everywhere else. -/
noncomputable def finiteProb (x : Shortcut EReal n) (model : String) (c' : Chain EReal n) (g : Goal n)
    (s : Fin n) : ℝ≥0∞ :=
  if x.chain.expectedReward x.goal (x.chain.rewardOf model) (lift s) = ⊤ then 1
  else c'.untilProb g s

namespace StandsFor

variable (h : x.StandsFor m priors p target c')
include h

theorem untilProb_le_one (y : Fin (n + 2)) : x.chain.untilProb x.goal y ≤ 1 :=
  Chain.untilProb_le_one h.mean_one_le y

theorem untilProb_sinkTrue : x.chain.untilProb x.goal (sinkTrue n) = 1 :=
  Chain.untilProb_target h.shortens.target_sinkTrue

/-! ## Probabilities -/

section Probability

variable (hk : p.formula.kind = .probability)
include hk

theorem untilProb_below (safety : p.isSafety = true) (s : Fin n) :
    x.chain.untilProb x.goal (lift s) ≤ c'.untilProb (p.formula.goal c'.labelling) s := by
  -- The true probabilities are not raised by a step of the shortened chain.
  refine h.untilProb_lift_le (fun s => .inr ?_) s
  by_cases hs : s ∈ x.expanded
  · rw [h.untilStep_expanded hs]
    simp only [extend_lift]
    exact Chain.untilStep_untilProb.le
  · by_cases ht : x.goal.target (lift s)
    · rw [Chain.untilStep_target ht, Chain.untilProb_target (h.target_lift.mp ht)]
    · by_cases ha : x.goal.allowed (lift s)
      · rw [Chain.untilStep_allowed ht ha, h.mean_probability hk hs, extend_sinkFalse,
          extend_sinkTrue, mul_zero, zero_add, mul_one, ← Chain.exactValue_probability hk]
        exact h.favours_boundOf.toENNReal_le safety
      · rw [Chain.untilStep_excluded ht ha]
        exact zero_le

theorem untilProb_above (liveness : ¬ p.isSafety = true) (s : Fin n) :
    c'.untilProb (p.formula.goal c'.labelling) s ≤ x.chain.untilProb x.goal (lift s) := by
  refine h.untilProb_le_lift (fun s hs ht ha => ?_) s
  have bound : c'.untilProb (p.formula.goal c'.labelling) s ≤ (boundOf m priors p s).toENNReal := by
    rw [← Chain.exactValue_probability hk]
    exact h.favours_boundOf.le_toENNReal liveness
  rw [Chain.untilProb_allowed ht ha, h.mean_probability hk hs, h.untilProb_sinkTrue, mul_one]
  exact bound.trans le_add_self

end Probability

/-! ## Expected rewards -/

section Reward

variable {model : String} (hm : p.formula.model? = some model)
include hm

/-- Where the true chain does not miss the target, a shortened chain does not. -/
theorem sure_lift (hs : c'.untilProb (p.formula.goal c'.labelling) s = 1) :
    x.chain.untilProb x.goal (lift s) = 1 := by
  refine le_antisymm (h.untilProb_le_one _) ?_
  rw [← hs]
  refine h.untilProb_le_lift (fun s hs ht ha => ?_) s
  rw [Chain.untilProb_allowed ht ha, h.mean_reward (Formula.kind_of_model? hm) hs,
    h.untilProb_sinkTrue]
  exact Chain.untilProb_le_one (fun s => (h.exact.mean_one s).le) s

theorem expectedReward_below (safety : p.isSafety = true) (s : Fin n) :
    x.chain.expectedReward x.goal (x.chain.rewardOf model) (lift s) ≤
      c'.expectedReward (p.formula.goal c'.labelling) (c'.rewardOf model) s := by
  by_cases sure : c'.untilProb (p.formula.goal c'.labelling) s = 1
  · rw [Chain.expectedReward_of_sure (h.sure_lift hm sure)]
    -- The true expected rewards are not raised by a step of the shortened chain.
    refine h.totalReward_lift_le hm (fun s => ?_) s
    by_cases hs : s ∈ x.expanded
    · rw [h.rewardStep_expanded hm hs]
      simp only [extend_lift]
      exact Chain.rewardStep_expectedReward_le fun s => (h.exact.mean_one s).le
    · by_cases ht : x.goal.target (lift s)
      · rw [Chain.rewardStep_target ht]
        exact zero_le
      · rw [Chain.rewardStep_of_not_target ht, h.rewardOf_unexpanded hm hs,
          h.mean_reward (Formula.kind_of_model? hm) hs, extend_sinkTrue, add_zero,
          ← Chain.exactValue_reward hm]
        exact h.favours_boundOf.toENNReal_le safety
  · rw [Chain.expectedReward_of_not_sure sure]
    exact le_top

/-- In a state that is not expanded, the expected reward of a shortened chain lies above the true one. -/
theorem expectedReward_above_of_unexpanded (liveness : ¬ p.isSafety = true) (hs : s ∉ x.expanded) :
    c'.expectedReward (p.formula.goal c'.labelling) (c'.rewardOf model) s ≤
      x.chain.expectedReward x.goal (x.chain.rewardOf model) (lift s) := by
  by_cases ht : x.goal.target (lift s)
  · have ht' := h.target_lift.mp ht
    rw [Chain.expectedReward_of_sure (Chain.untilProb_target ht'), Chain.totalReward_target ht']
    exact zero_le
  · have step : x.chain.rewardStep x.goal (x.chain.rewardOf model)
          (x.chain.expectedReward x.goal (x.chain.rewardOf model)) (lift s) ≤
        x.chain.expectedReward x.goal (x.chain.rewardOf model) (lift s) :=
      Chain.rewardStep_expectedReward_le h.mean_one_le
    rw [Chain.rewardStep_of_not_target ht, h.rewardOf_unexpanded hm hs] at step
    have bound : c'.expectedReward (p.formula.goal c'.labelling) (c'.rewardOf model) s ≤
        (boundOf m priors p s).toENNReal := by
      rw [← Chain.exactValue_reward hm]
      exact h.favours_boundOf.le_toENNReal liveness
    exact bound.trans (le_self_add.trans step)

omit hm in
/-- From an expanded state where a shortened chain has a finite expected reward, no run gets to a state
where it has not. -/
theorem finite_successor (hs : s ∈ x.expanded) (ht : ¬ x.goal.target (lift s))
    (finite : x.chain.expectedReward x.goal (x.chain.rewardOf model) (lift s) ≠ ⊤)
    {e : Edge EReal n} (he : e ∈ c'.row s) (hp : e.prob.toENNReal ≠ 0) :
    x.chain.expectedReward x.goal (x.chain.rewardOf model) (lift e.next) ≠ ⊤ := by
  intro infinite
  have step : x.chain.rewardStep x.goal (x.chain.rewardOf model)
        (x.chain.expectedReward x.goal (x.chain.rewardOf model)) (lift s) ≤
      x.chain.expectedReward x.goal (x.chain.rewardOf model) (lift s) :=
    Chain.rewardStep_expectedReward_le h.mean_one_le
  rw [Chain.rewardStep_of_not_target ht, h.mean_expanded hs] at step
  have term := Chain.mul_le_mean
    (v := fun t => x.chain.expectedReward x.goal (x.chain.rewardOf model) (lift t)) he
  rw [infinite, ENNReal.mul_top hp, top_le_iff] at term
  rw [term, add_top, top_le_iff] at step
  exact finite step

/-- Where a shortened chain has a finite expected reward, the true chain does not miss the target. -/
theorem sure_of_finite (liveness : ¬ p.isSafety = true)
    (finite : x.chain.expectedReward x.goal (x.chain.rewardOf model) (lift s) ≠ ⊤) :
    c'.untilProb (p.formula.goal c'.labelling) s = 1 := by
  have one (s : Fin n) : c'.mean (fun _ => 1) s ≤ 1 := (h.exact.mean_one s).le
  have below : x.chain.untilProb x.goal (lift s) ≤
      finiteProb x model c' (p.formula.goal c'.labelling) s := by
    refine h.untilProb_lift_le (fun s => ?_) s
    by_cases finite : x.chain.expectedReward x.goal (x.chain.rewardOf model) (lift s) = ⊤
    · left
      rw [finiteProb, if_pos finite]
      exact h.untilProb_le_one _
    by_cases hs : s ∈ x.expanded
    · right
      rw [h.untilStep_expanded hs, finiteProb, if_neg finite, ← Chain.untilStep_untilProb]
      simp only [extend_lift]
      by_cases ht : x.goal.target (lift s)
      · have ht' := h.target_lift.mp ht
        rw [Chain.untilStep_target ht', Chain.untilStep_target ht']
      · have ht' := h.target_lift.not.mp ht
        by_cases ha : (p.formula.goal c'.labelling).allowed s
        · rw [Chain.untilStep_allowed ht' ha, Chain.untilStep_allowed ht' ha]
          -- Successors with an infinite reward are never taken.
          refine Chain.mean_le_mean fun e he hp => ?_
          rw [finiteProb, if_neg (h.finite_successor hs ht finite he hp)]
        · rw [Chain.untilStep_excluded ht' ha, Chain.untilStep_excluded ht' ha]
    · left
      have finite' : c'.expectedReward (p.formula.goal c'.labelling) (c'.rewardOf model) s ≠ ⊤ :=
        ne_top_of_le_ne_top finite (h.expectedReward_above_of_unexpanded hm liveness hs)
      rw [finiteProb, if_neg finite, Chain.sure_of_expectedReward_ne_top finite']
      exact h.untilProb_le_one _
  rw [Chain.sure_of_expectedReward_ne_top finite, finiteProb, if_neg finite] at below
  exact le_antisymm (Chain.untilProb_le_one one s) below

theorem expectedReward_above (liveness : ¬ p.isSafety = true) (s : Fin n) :
    c'.expectedReward (p.formula.goal c'.labelling) (c'.rewardOf model) s ≤
      x.chain.expectedReward x.goal (x.chain.rewardOf model) (lift s) := by
  by_cases finite : x.chain.expectedReward x.goal (x.chain.rewardOf model) (lift s) = ⊤
  · rw [finite]
    exact le_top
  · rw [Chain.expectedReward_of_sure (h.sure_of_finite hm liveness finite)]
    refine h.totalReward_le_lift hm (fun s hs => ?_) s
    exact Chain.totalReward_le_expectedReward.trans
      (h.expectedReward_above_of_unexpanded hm liveness hs)

end Reward

/-! ## Both kinds of values -/

/-- **A shortened chain errs in favour of the property, whatever chain it stands for.** -/
theorem favours (s : Fin n) : p.Favours (x.chain.exactValue x.property.formula (lift s))
    (c'.exactValue p.formula s) := by
  cases hf : p.formula.model? with
  | none =>
    have hk : p.formula.kind = .probability := Formula.kind_of_model?_eq_none hf
    rw [Chain.exactValue_probability hk, Chain.exactValue_probability (h.shortens.kind.trans hk)]
    exact Property.favours_of_cases (h.untilProb_below hk · s) (h.untilProb_above hk · s)
  | some model =>
    rw [Chain.exactValue_reward hf, Chain.exactValue_reward (h.shortens.model?.trans hf)]
    exact Property.favours_of_cases (h.expectedReward_below hf · s) (h.expectedReward_above hf · s)

end StandsFor

variable {states : List (Fin n)}

/-- **The exact values of a shortened chain err in favour of the property.**  They lie below those of a
chain that completes the member if the property bounds from above, and above them if it bounds from
below, provided that what is known in advance is true of this chain. -/
theorem exactValue_favours (hx : ofMember m priors p = .ok x)
    (hc : p.formula.constraint? ≠ some targetLabel)
    (completes : c'.Completes m.chain p.formula (· ∈ states)) (exact : c'.Exact)
    (targets : ∀ s, priors.isTarget (m.quotientState.get s) = true →
      c'.labelling.has s p.formula.target = true)
    (bounds : ∀ s bound, priors.bound? (m.quotientState.get s) = some bound →
      p.Favours bound (c'.exactValue p.formula s)) (s : Fin n) :
    p.Favours ((x.expand states).chain.exactValue (x.expand states).property.formula (lift s))
      (c'.exactValue p.formula s) := by
  obtain ⟨target, shortens, fresh⟩ := shortens_of_ofMember hx
  have expanded {s : Fin n} (hs : s ∈ (x.expand states).expanded) : s ∈ states := by
    rcases mem_expanded_expand.mp hs with hs | hs
    · exact hs
    · rw [fresh] at hs
      exact absurd hs StateSet.not_mem_empty
  have standsFor : (x.expand states).StandsFor m priors p target c' :=
    { shortens := shortens.expand states
      constraint := hc
      completes := completes.mono expanded
      exact := exact
      targets := targets
      bounds := bounds }
  exact standsFor.favours s

/-- A corridor of three states with a door in the middle and a goal at its end.  Every state has one
successor. -/
noncomputable def corridor (next : Fin 3 → Fin 3) : Chain EReal 3 where
  initial := 0
  rows := .ofFn fun s => [⟨next s, 1⟩]
  labelling := (Labelling.empty 3).set "goal" (.ofList [2])
  reward := none

theorem row_corridor (next : Fin 3 → Fin 3) (s : Fin 3) : (corridor next).row s = [⟨next s, 1⟩] :=
  get_ofFn _ _

theorem exact_corridor (next : Fin 3 → Fin 3) : (corridor next).Exact := by
  refine ⟨fun s e he => ?_, fun s => ?_, fun model s => le_rfl⟩
  · rw [row_corridor, List.mem_singleton] at he
    rw [he]
    exact zero_le_one
  · rw [row_corridor]
    exact List.sum_singleton

/-- From the door one surely gets to the goal if it is open. -/
theorem exactValue_corridor {next : Fin 3 → Fin 3} (hn : next 1 = 2) :
    (corridor next).exactValue (.probability none "goal") 1 = 1 := by
  have door : (corridor next).labelling.has 1 "goal" = false := rfl
  have goal : (corridor next).labelling.has 2 "goal" = true := rfl
  rw [Chain.exactValue_probability rfl,
    Chain.untilProb_allowed (Bool.eq_false_iff.mp door) (by rintro _ ⟨⟩), Chain.mean, row_corridor,
    List.map_singleton, List.sum_singleton, hn, Chain.untilProb_target goal, mul_one]
  exact toENNReal_one

/-- The door of the corridor is known to be open, so that one surely gets to the goal from there. -/
noncomputable def openDoor : Priors EReal :=
  ⟨#[⟨none, false⟩, ⟨some 1, false⟩]⟩

theorem isTarget_openDoor (q : Nat) : openDoor.isTarget q = false := by
  match q with
  | 0 | 1 | q + 2 => rfl

theorem eq_of_bound?_openDoor {q : Nat} {bound : EReal} (h : openDoor.bound? q = some bound) :
    q = 1 ∧ bound = 1 := by
  match q with
  | 0 | q + 2 => cases h
  | 1 => exact ⟨rfl, (Option.some.inj h).symm⟩

/-- Only the beginning of the corridor is expanded, so nothing is seen of the door. -/
theorem corridor_favours :
    ∃ x, ofMember (.identity (corridor id)) openDoor
        ⟨.probability none "goal", ⟨.lessEqual, 0⟩⟩ = .ok x ∧
      ∀ s, (x.expand [0]).chain.exactValue (x.expand [0]).property.formula (lift s) ≤
        (corridor ![0, 2, 2]).exactValue (.probability none "goal") s := by
  have known : (Formula.probability none "goal").Known (corridor id).labelling :=
    ⟨rfl, by rintro _ ⟨⟩⟩
  have accepted (q : Nat) (bound : EReal) (hb : openDoor.bound? q = some bound) :
      BoundKind.accepts .probability bound = true := by
    obtain ⟨-, rfl⟩ := eq_of_bound?_openDoor hb
    exact decide_eq_true (p := (1 : EReal) ≠ ⊤ ∧ (1 : EReal) ≠ ⊥)
      ⟨EReal.coe_ne_top 1, EReal.coe_ne_bot 1⟩
  obtain ⟨x, hx⟩ : ∃ x, ofMember (.identity (corridor id)) openDoor
      ⟨.probability none "goal", ⟨.lessEqual, 0⟩⟩ = .ok x :=
    exists_ofMember known (by rintro _ ⟨⟩) accepted
  have completes : (corridor ![0, 2, 2]).Completes (corridor id)
      (.probability none "goal") (· ∈ [0]) := by
    refine ⟨rfl, rfl, fun s hs => ?_, by rintro _ ⟨⟩⟩
    rw [List.mem_singleton.mp hs, row_corridor, row_corridor]
    rfl
  refine ⟨x, hx, fun s => ?_⟩
  have favours := exactValue_favours hx (by rintro ⟨⟩) completes (exact_corridor _) ?_ ?_ s
  · exact EReal.coe_ennreal_le_coe_ennreal_iff.mp favours
  · intro s hs
    rw [isTarget_openDoor] at hs
    cases hs
  · intro s bound hb
    obtain ⟨hs, rfl⟩ := eq_of_bound?_openDoor hb
    have hs : s = 1 := by
      simpa [Member.identity, Fin.ext_iff] using hs
    rw [hs]
    show (1 : EReal) ≤ _
    rw [exactValue_corridor rfl]
    exact le_rfl

end Shortcut

end HoleBlame
