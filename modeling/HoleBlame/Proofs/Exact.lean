import Mathlib.Topology.Instances.EReal.Lemmas
import Mathlib.Order.CompletePartialOrder
import HoleBlame.Proofs.Shortening

/-!
# Exact values

What the values of a chain are that is read with exact numbers.  The probability of an until formula is
the limit of the probabilities of reaching the target within a number of steps
(`Chain.tendsto_untilWithin`), and an expected reward is the limit of the rewards collected within a
number of steps (`Chain.tendsto_rewardWithin`), or infinite where the target may be missed.

Both are fixed by one step of the chain.  A probability is the mean of the probabilities of the
successors (`Chain.untilStep_untilProb`) and lies below whatever is not raised by a step
(`Chain.untilProb_le`); an expected reward is not raised by a step either
(`Chain.rewardStep_expectedReward_le`), and the rewards collected within a number of steps lie below
whatever is not raised by one (`Chain.totalReward_le`).
-/

namespace HoleBlame

open Filter Topology
open scoped ENNReal

/-- Exact numbers, with infinite ones. -/
noncomputable instance : Scalar EReal where
  decideLT := inferInstance
  decideLE := inferInstance
  half := ((1 / 2 : ℝ) : EReal)
  infinity := ⊤
  emptySum := 0
  abs x := max x (-x)
  isFinite x := decide (x ≠ ⊤ ∧ x ≠ ⊥)
  isNaN _ := false

namespace Chain

variable {n : Nat}

/-! ## The mean of the successors -/

section Mean

variable (c : Chain EReal n)

/-- The mean of a value over the successors of a state. -/
noncomputable def mean (v : Fin n → ℝ≥0∞) (s : Fin n) : ℝ≥0∞ :=
  ((c.row s).map fun e => e.prob.toENNReal * v e.next).sum

variable {c} {v w : Fin n → ℝ≥0∞} {s : Fin n}

/-- A mean grows with the values of the successors that are ever taken. -/
theorem mean_le_mean (h : ∀ e ∈ c.row s, e.prob.toENNReal ≠ 0 → v e.next ≤ w e.next) :
    c.mean v s ≤ c.mean w s := by
  refine List.sum_le_sum fun e he => ?_
  by_cases hp : e.prob.toENNReal = 0
  · rw [hp, zero_mul, zero_mul]
  · exact mul_le_mul_right (h e he hp) _

theorem mean_mono (h : ∀ t, v t ≤ w t) : c.mean v s ≤ c.mean w s :=
  mean_le_mean fun e _ _ => h e.next

theorem mean_add : c.mean (fun t => v t + w t) s = c.mean v s + c.mean w s := by
  simp only [mean, mul_add, List.sum_map_add]

theorem mul_le_mean {e : Edge EReal n} (he : e ∈ c.row s) :
    e.prob.toENNReal * v e.next ≤ c.mean v s :=
  List.single_le_sum (fun _ _ => zero_le) _ (List.mem_map_of_mem he)

theorem mean_iSup {v : Nat → Fin n → ℝ≥0∞} (mono : Monotone v) :
    c.mean (fun t => ⨆ k, v k t) s = ⨆ k, c.mean (v k) s := by
  simp only [mean]
  induction c.row s with
  | nil => simp
  | cons e rest ih =>
    simp only [List.map_cons, List.sum_cons]
    rw [ih, ENNReal.mul_iSup]
    refine ENNReal.iSup_add_iSup_of_monotone ?_ ?_
    · intro j k hjk
      exact mul_le_mul_right (mono hjk e.next) _
    · intro j k hjk
      exact List.sum_le_sum fun e _ => mul_le_mul_right (mono hjk e.next) _

end Mean

/-! ## Chains with exact numbers -/

/-- Probabilities and rewards are not negative, and the probabilities of every state add up to one. -/
structure Exact (c : Chain EReal n) : Prop where
  prob_nonneg : ∀ s, ∀ e ∈ c.row s, 0 ≤ e.prob
  sum_prob : ∀ s, ((c.row s).map Edge.prob).sum = 1
  reward_nonneg : ∀ model s, 0 ≤ c.rewardAt model s

theorem mean_one_of_sum {c : Chain EReal n} {s : Fin n} (nonneg : ∀ e ∈ c.row s, 0 ≤ e.prob)
    (sum_prob : ((c.row s).map Edge.prob).sum = 1) : c.mean (fun _ => 1) s = 1 := by
  have sum (row : List (Edge EReal n)) (h : ∀ e ∈ row, 0 ≤ e.prob) :
      0 ≤ (row.map Edge.prob).sum ∧
        (row.map fun e => e.prob.toENNReal * 1).sum = (row.map Edge.prob).sum.toENNReal := by
    induction row with
    | nil => simp
    | cons e rest ih =>
      obtain ⟨nonneg, eq⟩ := ih fun e he => h e (List.mem_cons_of_mem _ he)
      have hp := h e List.mem_cons_self
      simp only [List.map_cons, List.sum_cons]
      exact ⟨add_nonneg hp nonneg, by rw [eq, mul_one, EReal.toENNReal_add hp nonneg]⟩
  rw [mean, (sum _ nonneg).2, sum_prob]
  exact EReal.toENNReal_coe (x := 1)

theorem Exact.mean_one {c : Chain EReal n} (exact : c.Exact) (s : Fin n) :
    c.mean (fun _ => 1) s = 1 :=
  mean_one_of_sum (exact.prob_nonneg s) (exact.sum_prob s)

/-! ## Until probabilities -/

section Until

variable (c : Chain EReal n) (g : Goal n)

open Classical in
/-- What is reached within one more step than before. -/
noncomputable def untilStep (v : Fin n → ℝ≥0∞) (s : Fin n) : ℝ≥0∞ :=
  if g.target s then 1 else if g.allowed s then c.mean v s else 0

open Classical in
/-- The probability of reaching the target within a number of steps. -/
noncomputable def untilWithin : Nat → Fin n → ℝ≥0∞
  | 0, s => if g.target s then 1 else 0
  | k + 1, s => c.untilStep g (untilWithin k) s

/-- The probability of reaching the target. -/
noncomputable def untilProb (s : Fin n) : ℝ≥0∞ :=
  ⨆ k, c.untilWithin g k s

variable {c g} {v w : Fin n → ℝ≥0∞} {s : Fin n}

theorem untilStep_target (hs : g.target s) : c.untilStep g v s = 1 := if_pos hs

theorem untilStep_allowed (hs : ¬ g.target s) (ha : g.allowed s) :
    c.untilStep g v s = c.mean v s := by
  rw [untilStep, if_neg hs, if_pos ha]

theorem untilStep_excluded (hs : ¬ g.target s) (ha : ¬ g.allowed s) : c.untilStep g v s = 0 := by
  rw [untilStep, if_neg hs, if_neg ha]

theorem untilStep_mono (h : ∀ t, v t ≤ w t) : c.untilStep g v s ≤ c.untilStep g w s := by
  unfold untilStep
  split
  · exact le_rfl
  · split
    · exact mean_mono h
    · exact le_rfl

theorem untilWithin_le_succ (k : Nat) : c.untilWithin g k s ≤ c.untilWithin g (k + 1) s := by
  induction k generalizing s with
  | zero =>
    by_cases hs : g.target s
    · rw [untilWithin, untilWithin, if_pos hs, untilStep_target hs]
    · rw [untilWithin, if_neg hs]
      exact zero_le
  | succ k ih => exact untilStep_mono fun t => ih

theorem untilWithin_mono : Monotone (c.untilWithin g) :=
  monotone_nat_of_le_succ fun k _ => untilWithin_le_succ k

/-- The probability is the limit of the probabilities within a number of steps. -/
theorem tendsto_untilWithin :
    Tendsto (fun k => c.untilWithin g k s) atTop (𝓝 (c.untilProb g s)) :=
  tendsto_atTop_iSup fun _ _ h => untilWithin_mono h s

theorem untilWithin_le_untilProb (k : Nat) : c.untilWithin g k s ≤ c.untilProb g s :=
  le_iSup (fun k => c.untilWithin g k s) k

/-- **A further step does not change the probability.** -/
theorem untilStep_untilProb : c.untilStep g (c.untilProb g) s = c.untilProb g s := by
  have later : c.untilProb g s = ⨆ k, c.untilStep g (c.untilWithin g k) s := by
    refine le_antisymm (iSup_le fun k => ?_) (iSup_le fun k => ?_)
    · exact le_iSup_of_le k (untilWithin_le_succ k)
    · exact untilWithin_le_untilProb (k + 1)
  rw [later]
  by_cases hs : g.target s
  · simp only [untilStep_target hs, iSup_const]
  · by_cases ha : g.allowed s
    · simp only [untilStep_allowed hs ha]
      exact mean_iSup untilWithin_mono
    · simp only [untilStep_excluded hs ha, iSup_const]

/-- **The probability lies below what a further step does not raise.**  Where it lies below anyway, it
does not matter what a step does. -/
theorem untilProb_le (h : ∀ s, c.untilProb g s ≤ v s ∨ c.untilStep g v s ≤ v s) (s : Fin n) :
    c.untilProb g s ≤ v s := by
  -- By induction on the number of steps: what lies below a value still does so after one more step.
  refine iSup_le fun k => ?_
  induction k generalizing s with
  | zero =>
    rcases h s with h | h
    · exact (untilWithin_le_untilProb 0).trans h
    · by_cases hs : g.target s
      · rw [untilWithin, if_pos hs]
        rwa [untilStep_target hs] at h
      · rw [untilWithin, if_neg hs]
        exact zero_le
  | succ k ih =>
    rcases h s with h | h
    · exact (untilWithin_le_untilProb (k + 1)).trans h
    · exact (untilStep_mono ih).trans h

theorem untilProb_target (hs : g.target s) : c.untilProb g s = 1 := by
  rw [← untilStep_untilProb, untilStep_target hs]

theorem untilProb_allowed (hs : ¬ g.target s) (ha : g.allowed s) :
    c.untilProb g s = c.mean (c.untilProb g) s := by
  rw [← untilStep_untilProb, untilStep_allowed hs ha]

theorem untilProb_le_one (h : ∀ s, c.mean (fun _ => 1) s ≤ 1) (s : Fin n) :
    c.untilProb g s ≤ 1 := by
  refine untilProb_le (v := fun _ => 1) (fun s => .inr ?_) s
  unfold untilStep
  split
  · exact le_rfl
  · split
    · exact h s
    · exact zero_le_one

end Until

/-! ## Expected rewards -/

section Reward

variable (c : Chain EReal n) (g : Goal n) (r : Fin n → ℝ≥0∞)

open Classical in
/-- What is collected within one more step than before. -/
noncomputable def rewardStep (v : Fin n → ℝ≥0∞) (s : Fin n) : ℝ≥0∞ :=
  if g.target s then 0 else r s + c.mean v s

/-- The mean reward that is collected within a number of steps, or until the target if that is
earlier. -/
noncomputable def rewardWithin : Nat → Fin n → ℝ≥0∞
  | 0, _ => 0
  | k + 1, s => c.rewardStep g r (rewardWithin k) s

/-- The mean reward that is collected until the target, or for ever. -/
noncomputable def totalReward (s : Fin n) : ℝ≥0∞ :=
  ⨆ k, c.rewardWithin g r k s

open Classical in
/-- The expected reward: the mean reward until the target, or infinity if the target may be missed. -/
noncomputable def expectedReward (s : Fin n) : ℝ≥0∞ :=
  if c.untilProb g s = 1 then c.totalReward g r s else ⊤

variable {c g r} {v w : Fin n → ℝ≥0∞} {s : Fin n}

theorem rewardStep_target (hs : g.target s) : c.rewardStep g r v s = 0 := if_pos hs

theorem rewardStep_of_not_target (hs : ¬ g.target s) :
    c.rewardStep g r v s = r s + c.mean v s := if_neg hs

theorem rewardStep_mono (h : ∀ t, v t ≤ w t) : c.rewardStep g r v s ≤ c.rewardStep g r w s := by
  unfold rewardStep
  split
  · exact le_rfl
  · exact add_le_add_right (mean_mono h) _

theorem rewardWithin_mono : Monotone (c.rewardWithin g r) := by
  refine monotone_nat_of_le_succ fun k => ?_
  induction k with
  | zero => exact fun s => zero_le
  | succ k ih => exact fun s => rewardStep_mono ih

/-- The mean reward is the limit of what is collected within a number of steps. -/
theorem tendsto_rewardWithin :
    Tendsto (fun k => c.rewardWithin g r k s) atTop (𝓝 (c.totalReward g r s)) :=
  tendsto_atTop_iSup fun _ _ h => rewardWithin_mono h s

theorem totalReward_target (hs : g.target s) : c.totalReward g r s = 0 := by
  refine le_antisymm (iSup_le fun k => ?_) zero_le
  cases k with
  | zero => exact le_rfl
  | succ k => exact (rewardStep_target hs).le

theorem totalReward_of_not_target (hs : ¬ g.target s) :
    c.totalReward g r s = r s + c.mean (c.totalReward g r) s := by
  have mean : c.mean (c.totalReward g r) s = ⨆ k, c.mean (c.rewardWithin g r k) s :=
    mean_iSup rewardWithin_mono
  rw [mean, ENNReal.add_iSup]
  refine le_antisymm (iSup_le fun k => ?_) (iSup_le fun k => ?_)
  · cases k with
    | zero => exact zero_le
    | succ k => exact le_iSup_of_le k (rewardStep_of_not_target hs).le
  · rw [← rewardStep_of_not_target hs]
    exact le_iSup (fun k => c.rewardWithin g r k s) (k + 1)

/-- **The mean reward lies below what a further step does not raise.**  Where it lies below anyway, it
does not matter what a step does. -/
theorem totalReward_le (h : ∀ s, c.totalReward g r s ≤ v s ∨ c.rewardStep g r v s ≤ v s)
    (s : Fin n) : c.totalReward g r s ≤ v s := by
  refine iSup_le fun k => ?_
  induction k generalizing s with
  | zero => exact zero_le
  | succ k ih =>
    rcases h s with h | h
    · exact (le_iSup (fun k => c.rewardWithin g r k s) (k + 1)).trans h
    · exact (rewardStep_mono ih).trans h

theorem expectedReward_of_sure (h : c.untilProb g s = 1) :
    c.expectedReward g r s = c.totalReward g r s := if_pos h

theorem expectedReward_of_not_sure (h : c.untilProb g s ≠ 1) : c.expectedReward g r s = ⊤ :=
  if_neg h

theorem totalReward_le_expectedReward : c.totalReward g r s ≤ c.expectedReward g r s := by
  unfold expectedReward
  split
  · exact le_rfl
  · exact le_top

theorem sure_of_expectedReward_ne_top (h : c.expectedReward g r s ≠ ⊤) : c.untilProb g s = 1 := by
  by_contra hs
  exact h (expectedReward_of_not_sure hs)

/-- Where the target is reached almost surely, it is so from every successor that is ever taken. -/
theorem untilProb_successor (one : ∀ s, c.mean (fun _ => 1) s ≤ 1) (hs : ¬ g.target s)
    (h : c.untilProb g s = 1) {e : Edge EReal n} (he : e ∈ c.row s) (hp : e.prob.toENNReal ≠ 0) :
    c.untilProb g e.next = 1 := by
  have ha : g.allowed s := by
    by_contra ha
    rw [← untilStep_untilProb, untilStep_excluded hs ha] at h
    exact zero_ne_one h
  have le_one := untilProb_le_one (g := g) one
  -- What is missing to one has mean zero.
  have missing : c.mean (fun t => 1 - c.untilProb g t) s = 0 := by
    have split : c.mean (c.untilProb g) s + c.mean (fun t => 1 - c.untilProb g t) s ≤ 1 := by
      rw [← mean_add]
      simp only [add_tsub_cancel_of_le (le_one _)]
      exact one s
    rw [← untilProb_allowed hs ha, h] at split
    exact nonpos_iff_eq_zero.mp (ENNReal.le_of_add_le_add_left ENNReal.one_ne_top (by simpa using split))
  have none := mul_le_mean (v := fun t => 1 - c.untilProb g t) he
  rw [missing, nonpos_iff_eq_zero, mul_eq_zero] at none
  exact le_antisymm (le_one _) (tsub_eq_zero_iff_le.mp (none.resolve_left hp))

/-- **A further step does not raise the expected reward.** -/
theorem rewardStep_expectedReward_le (one : ∀ s, c.mean (fun _ => 1) s ≤ 1) :
    c.rewardStep g r (c.expectedReward g r) s ≤ c.expectedReward g r s := by
  by_cases hs : g.target s
  · rw [rewardStep_target hs]
    exact zero_le
  · by_cases h : c.untilProb g s = 1
    · rw [rewardStep_of_not_target hs, expectedReward_of_sure h, totalReward_of_not_target hs]
      refine add_le_add_right (mean_le_mean fun e he hp => ?_) _
      exact (expectedReward_of_sure (untilProb_successor one hs h he hp)).le
    · rw [expectedReward_of_not_sure h]
      exact le_top

end Reward

/-! ## Values of formulas -/

/-- The rewards of a model, which are not negative. -/
noncomputable def rewardOf (c : Chain EReal n) (model : String) (s : Fin n) : ℝ≥0∞ :=
  (c.rewardAt model s).toENNReal

/-- The exact value of a formula in a state. -/
noncomputable def exactValue (c : Chain EReal n) (f : Formula) (s : Fin n) : ℝ≥0∞ :=
  match f with
  | .probability .. => c.untilProb (f.goal c.labelling) s
  | .reward model _ => c.expectedReward (f.goal c.labelling) (c.rewardOf model) s

section Value

variable {c : Chain EReal n} {f : Formula} {s : Fin n}

theorem exactValue_probability (hf : f.kind = .probability) :
    c.exactValue f s = c.untilProb (f.goal c.labelling) s := by
  cases f with
  | probability constraint target => rfl
  | reward model target => cases hf

theorem exactValue_reward {model : String} (hf : f.model? = some model) :
    c.exactValue f s = c.expectedReward (f.goal c.labelling) (c.rewardOf model) s := by
  cases f with
  | probability constraint target => cases hf
  | reward other target =>
    cases hf
    rfl

theorem Exact.exactValue_le_one (exact : c.Exact) (hf : f.kind = .probability) (s : Fin n) :
    c.exactValue f s ≤ 1 := by
  rw [exactValue_probability hf]
  exact untilProb_le_one (fun s => (exact.mean_one s).le) s

end Value

end Chain

end HoleBlame
