import HoleBlame.Proofs.Certainty
import HoleBlame.Proofs.Rewards

/-!
# Expected rewards from below

With exact numbers the iteration of an expected reward finds what is collected within as many steps as it
takes rounds (`Checker.get_valuesAfter`), which is at most what is collected until the target.  This is
said of the states that are sure of the target.  All others keep the infinite value that they start with,
because a run may miss the target from there (`Chain.not_sure_iff`).

The two kinds of states do not get into each other's way: a sure state that is no target has only sure
successors, so no infinite value is ever multiplied into the value of a state that is iterated
(`Checker.check_collects`).  Since every step collects a bounded reward, the values that are found there
are finite (`Chain.Stochastic.rewardWithin_ne_top`).
-/

namespace HoleBlame

open scoped ENNReal

variable {n : Nat}

namespace Chain

/-! ## States that may miss the target -/

/-- Runs that collect rewards may pass through any state. -/
theorem allowed_reward {L : Labelling n} {model target : String} {s : Fin n} :
    ((Formula.reward model target).goal L).allowed s := by
  rintro name ⟨⟩

section Graph

variable {α : Type} {c : Chain α n} {g : Goal n} {s : Fin n}

/-- **A state is not sure of the target iff a path that avoids the target leads to a state from which no
path leads there.** -/
theorem not_sure_iff (free : ∀ t, g.allowed t) : ¬ c.Sure g s ↔
    ∃ t, c.Path (fun x => ¬ g.target x) s t ∧ ∀ u, g.target u → ¬ c.Path (fun _ => True) t u := by
  have anywhere : g.allowed = fun _ => True :=
    funext fun x => propext (iff_true_intro (free x))
  simp only [Sure, Positive, anywhere, true_and, not_forall, not_exists, not_and, exists_prop]

end Graph

/-! ## Rewards within a number of steps -/

section Exact

variable {c : Chain EReal n} {g : Goal n} {r : Fin n → ℝ≥0∞} {v w : Fin n → ℝ≥0∞} {s : Fin n}

/-- A mean is fixed by the values of the successors. -/
theorem mean_congr (same : ∀ t ∈ c.successors s, v t = w t) : c.mean v s = c.mean w s :=
  le_antisymm (mean_le_mean fun _ he _ => (same _ (List.mem_map_of_mem he)).le)
    (mean_le_mean fun _ he _ => (same _ (List.mem_map_of_mem he)).ge)

theorem rewardWithin_target (hs : g.target s) (k : Nat) : c.rewardWithin g r k s = 0 := by
  cases k with
  | zero => rfl
  | succ k => exact rewardStep_target hs

theorem rewardWithin_le_totalReward (k : Nat) : c.rewardWithin g r k s ≤ c.totalReward g r s :=
  le_iSup (fun k => c.rewardWithin g r k s) k

namespace Stochastic

variable (stochastic : c.Stochastic)
include stochastic

/-- No more is collected than the largest reward in every step. -/
theorem rewardWithin_le {most : ℝ≥0∞} (le : ∀ s, r s ≤ most) (k : Nat) (s : Fin n) :
    c.rewardWithin g r k s ≤ k * most := by
  induction k generalizing s with
  | zero => exact zero_le
  | succ k ih =>
    by_cases hs : g.target s
    · rw [rewardWithin_target hs]
      exact zero_le
    · have before : c.mean (c.rewardWithin g r k) s ≤ k * most := by
        calc c.mean (c.rewardWithin g r k) s ≤ c.mean (fun _ => k * most) s := mean_mono ih
          _ = k * most := by rw [mean_const, stochastic.mean_one, mul_one]
      calc c.rewardWithin g r (k + 1) s = r s + c.mean (c.rewardWithin g r k) s :=
            rewardStep_of_not_target hs
        _ ≤ most + k * most := add_le_add (le s) before
        _ = (k + 1 : Nat) * most := by rw [Nat.cast_succ, add_mul, one_mul, add_comm]

/-- **What is collected within a number of steps is finite if all rewards are.** -/
theorem rewardWithin_ne_top (finite : ∀ s, r s ≠ ⊤) (k : Nat) (s : Fin n) :
    c.rewardWithin g r k s ≠ ⊤ := by
  have le (s : Fin n) : r s ≤ ∑ t, r t :=
    Finset.single_le_sum (fun _ _ => zero_le) (Finset.mem_univ s)
  have most : (∑ t, r t) ≠ ⊤ := ENNReal.sum_ne_top.mpr fun t _ => finite t
  exact ne_top_of_le_ne_top (ENNReal.mul_ne_top (ENNReal.natCast_ne_top k) most)
    (stochastic.rewardWithin_le le k s)

end Stochastic

end Exact

end Chain

namespace Checker

variable {c : Chain EReal n} {model target : String} {s : Fin n}

/-! ## Rounds of the iteration -/

/-- Where the iteration has something to do, all successors are sure of the target. -/
theorem sure_successor (hs : s ∈ c.undecided (.reward model target)) {t : Fin n}
    (ht : t ∈ c.successors s) : c.Sure ((Formula.reward model target).goal c.labelling) t := by
  obtain ⟨sure, open_⟩ := (Chain.mem_undecided_reward rfl).mp hs
  exact sure.successor open_ ht

section Rounds

variable (stochastic : c.Stochastic) (nonneg : ∀ s, 0 ≤ c.rewardAt model s)
include stochastic nonneg

open Classical in
/-- **After a number of rounds, the value of a state that is sure of the target is what is collected
within as many steps.**  The value of any other state is infinite. -/
theorem get_valuesAfter (rounds : Nat) (s : Fin n) :
    (c.valuesAfter (.reward model target) rounds).get s =
      ((if c.Sure ((Formula.reward model target).goal c.labelling) s then
        c.rewardWithin ((Formula.reward model target).goal c.labelling) (c.rewardOf model) rounds s
        else ⊤ : ℝ≥0∞) : EReal) := by
  induction rounds generalizing s with
  | zero =>
    by_cases sure : c.Sure ((Formula.reward model target).goal c.labelling) s
    · rw [if_pos sure]
      exact (Chain.get_firstValues_reward rfl).trans (if_pos sure)
    · rw [if_neg sure]
      exact (Chain.get_firstValues_reward rfl).trans (if_neg sure)
  | succ rounds ih =>
    by_cases sure : c.Sure ((Formula.reward model target).goal c.labelling) s
    · rw [if_pos sure]
      by_cases ht : ((Formula.reward model target).goal c.labelling).target s
      · rw [Chain.valuesAfter_of_target rfl ht, Chain.rewardWithin_target ht]
        rfl
      · have hs : s ∈ c.undecided (.reward model target) :=
          (Chain.mem_undecided_reward rfl).mpr ⟨sure, ht⟩
        rw [Chain.valuesAfter_succ_of_mem hs, update, Chain.collected_reward rfl,
          sumOver_eq_mean (fun e he => (stochastic.prob_pos s e he).le) ih, Chain.rewardWithin,
          Chain.rewardStep_of_not_target ht, EReal.coe_ennreal_add, Chain.rewardOf,
          EReal.coe_toENNReal (nonneg s)]
        congr 2
        exact Chain.mean_congr fun t ht => if_pos (sure_successor hs ht)
    · rw [if_neg sure, Chain.valuesAfter_of_not_sure rfl sure]
      rfl

/-- In no round does a state that is iterated take anything from an infinite value. -/
theorem valuesAfter_successor_ne_top (finite : ∀ s, c.rewardAt model s < ⊤)
    (hs : s ∈ c.undecided (.reward model target)) {t : Fin n} (ht : t ∈ c.successors s)
    (rounds : Nat) : (c.valuesAfter (.reward model target) rounds).get t ≠ ⊤ := by
  rw [get_valuesAfter stochastic nonneg, if_pos (sure_successor hs ht), Ne,
    EReal.coe_ennreal_eq_top_iff]
  refine stochastic.rewardWithin_ne_top (fun s => ?_) rounds t
  exact EReal.toENNReal_ne_top_iff.mpr (finite s).ne

end Rounds

/-- **Expected rewards are infinite exactly where the target may be missed, and never too large.**  In all
other states the values that a checker finds are what is collected before the target within as many
steps as it took rounds. -/
theorem check_collects {k : Checker EReal} {b : Bound EReal} {result : CheckResult EReal n}
    (stochastic : c.Stochastic) (rewards : ∀ s, 0 ≤ c.rewardAt model s ∧ c.rewardAt model s < ⊤)
    (h : k.check c ⟨.reward model target, b⟩ = .ok result) :
    ∃ rounds values, result = .quantitative values ∧
      k.AnswersAfter c ⟨.reward model target, b⟩ rounds values ∧
      ∀ s, let g := (Formula.reward model target).goal c.labelling
        (values.get s = ⊤ ↔ ∃ t, c.Path (fun x => ¬ g.target x) s t ∧
          ∀ u, g.target u → ¬ c.Path (fun _ => True) t u) ∧
        (g.target s → values.get s = 0) ∧
        (values.get s ≠ ⊤ →
          values.get s = (c.rewardWithin g (c.rewardOf model) rounds s : EReal)) ∧
        values.get s ≤ (c.expectedReward g (c.rewardOf model) s : EReal) ∧
        (values.get s ≠ ⊤ → ¬ g.target s → ∀ t ∈ c.successors s, ∀ j,
          (c.valuesAfter (.reward model target) j).get t ≠ ⊤) := by
  classical
  obtain ⟨known, exact⟩ := known_of_check h
  have inner : ¬ Property.Extreme (⟨.reward model target, b⟩ : Property EReal) := by
    rintro ⟨⟨⟩, -⟩
  obtain ⟨rounds, after, rfl⟩ := (iterates known exact inner).exists_answersAfter h
  refine ⟨rounds, _, rfl, after, fun s => ?_⟩
  have value : (c.valuesAfter (.reward model target) rounds).get s = _ :=
    get_valuesAfter stochastic (fun s => (rewards s).1) rounds s
  have free (t : Fin n) : ((Formula.reward model target).goal c.labelling).allowed t :=
    Chain.allowed_reward
  have missing := Chain.not_sure_iff (c := c) (s := s) free
  by_cases sure : c.Sure ((Formula.reward model target).goal c.labelling) s
  · rw [if_pos sure] at value
    have finite : c.rewardWithin ((Formula.reward model target).goal c.labelling) (c.rewardOf model)
        rounds s ≠ ⊤ :=
      stochastic.rewardWithin_ne_top (fun s => EReal.toENNReal_ne_top_iff.mpr (rewards s).2.ne) rounds s
    refine ⟨?_, fun ht => ?_, fun _ => value, ?_, fun _ ht t hts j => ?_⟩
    · rw [← missing, value, EReal.coe_ennreal_eq_top_iff]
      exact iff_of_false finite (not_not.mpr sure)
    · rw [value, Chain.rewardWithin_target ht]
      rfl
    · rw [value, Chain.expectedReward_of_sure (stochastic.untilProb_of_sure sure)]
      exact EReal.coe_ennreal_le_coe_ennreal_iff.mpr (Chain.rewardWithin_le_totalReward rounds)
    · exact valuesAfter_successor_ne_top stochastic (fun s => (rewards s).1) (fun s => (rewards s).2)
        ((Chain.mem_undecided_reward rfl).mpr ⟨sure, ht⟩) hts j
  · rw [if_neg sure] at value
    have infinite : (c.valuesAfter (.reward model target) rounds).get s = ⊤ := value
    refine ⟨iff_of_true infinite (missing.mp sure), fun ht => absurd (.of_target ht) sure,
      fun finite => absurd infinite finite, ?_, fun finite => absurd infinite finite⟩
    have unsure := mt stochastic.sure_of_untilProb sure
    rw [Chain.expectedReward_of_not_sure unsure]
    exact le_top

/-- A road home over six tollgates, and a shortcut that may end in a ditch. -/
noncomputable def tollRoad : Chain EReal 9 where
  initial := 6
  rows := .ofFn fun s =>
    if s = 0 ∨ s = 8 then [⟨s, 1⟩]
    else if s = 7 then [⟨0, Scalar.half⟩, ⟨8, Scalar.half⟩]
    else [⟨s - 1, 1⟩]
  labelling := (Labelling.empty 9).set "home" (.ofList [0])
  reward := some ⟨"toll", .ofFn fun s => if 7 ≤ s then 0 else 1⟩

theorem row_tollRoad (s : Fin 9) : tollRoad.row s =
    if s = 0 ∨ s = 8 then [⟨s, 1⟩]
    else if s = 7 then [⟨0, Scalar.half⟩, ⟨8, Scalar.half⟩]
    else [⟨s - 1, 1⟩] :=
  get_ofFn _ s

theorem rewardAt_tollRoad (s : Fin 9) : tollRoad.rewardAt "toll" s = if 7 ≤ s then 0 else 1 :=
  get_ofFn _ s

theorem stochastic_tollRoad : tollRoad.Stochastic := by
  constructor
  · intro s e he
    rw [row_tollRoad] at he
    split at he
    · rw [List.mem_singleton.mp he]
      exact zero_lt_one
    · split at he
      · simp only [List.mem_cons, List.not_mem_nil, or_false] at he
        rcases he with rfl | rfl
        · exact half_pos
        · exact half_pos
      · rw [List.mem_singleton.mp he]
        exact zero_lt_one
  · intro s
    rw [row_tollRoad]
    split
    · exact List.sum_singleton
    · split
      · simp only [List.map_cons, List.map_nil, List.sum_cons, List.sum_nil, add_zero, half_add_half]
      · exact List.sum_singleton

theorem goal_tollRoad :
    goalOf none (StateSet.ofList [0]) = (Formula.reward "toll" "home").goal tollRoad.labelling :=
  goalOf_none rfl rfl

theorem surely_tollRoad (s : Fin 9) :
    tollRoad.Sure ((Formula.reward "toll" "home").goal tollRoad.labelling) s ↔ s < 7 := by
  have surely : ∀ s : Fin 9, s ∈ (extremes tollRoad none (StateSet.ofList [0])).surely ↔ s < 7 := by
    decide +kernel
  rw [← goal_tollRoad, ← mem_surely, surely]

theorem mem_undecided_tollRoad {s : Fin 9} : s ∈ tollRoad.undecided (.reward "toll" "home") ↔ 0 < s ∧ s < 7 := by
  have target : ((Formula.reward "toll" "home").goal tollRoad.labelling).target s ↔ s = 0 := by
    rw [← goal_tollRoad]
    show s ∈ StateSet.ofList [0] ↔ s = 0
    simp
  rw [Chain.mem_undecided_reward rfl, surely_tollRoad, target, Fin.pos_iff_ne_zero, and_comm]

/-- On the way over the gates, as many tolls have been collected as there have been rounds, until all have been. -/
theorem get_valuesAfter_tollRoad (rounds : ℕ) {s : Fin 9} (hs : s < 7) :
    (tollRoad.valuesAfter (.reward "toll" "home") rounds).get s = (((min rounds s : ℕ) : ℝ) : EReal) := by
  induction rounds generalizing s with
  | zero =>
    have start : tollRoad.valuesAfter (.reward "toll" "home") 0 =
        tollRoad.firstValues (.reward "toll" "home") := rfl
    rw [start, Chain.get_firstValues_reward rfl, if_pos ((surely_tollRoad s).mpr hs), Nat.zero_min]
    norm_num
  | succ rounds ih =>
    by_cases home : s = 0
    · have outside : s ∉ tollRoad.undecided (.reward "toll" "home") := by
        rw [mem_undecided_tollRoad, home]
        exact fun inside => lt_irrefl _ inside.1
      have none (rounds : ℕ) : min rounds s.val = 0 := by
        rw [home]
        exact Nat.min_zero rounds
      have kept := ih hs
      rw [none, ← none rounds, ← kept, Chain.valuesAfter_of_not_mem outside,
        Chain.valuesAfter_of_not_mem outside]
    · have inside := mem_undecided_tollRoad.mpr ⟨Fin.pos_iff_ne_zero.mpr home, hs⟩
      have road : tollRoad.row s = [⟨s - 1, 1⟩] := by
        rw [row_tollRoad, if_neg, if_neg] <;> omega
      have toll : tollRoad.collected (.reward "toll" "home") s = 1 := by
        rw [Chain.collected_reward rfl, rewardAt_tollRoad, if_neg (by omega)]
      have before : (s - 1).val = s.val - 1 := by omega
      have one_more : min (rounds + 1) s.val = 1 + min rounds (s.val - 1) := by omega
      rw [Chain.valuesAfter_succ_of_mem inside, update, road, toll]
      show (1 : EReal) + (0 + 1 * (tollRoad.valuesAfter _ rounds).get (s - 1)) = _
      rw [ih (by omega), zero_add, one_mul, before, one_more, Nat.cast_add, Nat.cast_one, EReal.coe_add,
        EReal.coe_one]

/-- In the seventh round nothing is collected any more, but in every round before some toll is. -/
theorem settles_tollRoad : Settles ⟨((1 / 10 : ℝ) : EReal), 7⟩ tollRoad
    (tollRoad.collected (.reward "toll" "home")) (tollRoad.undecided (.reward "toll" "home"))
    (tollRoad.firstValues (.reward "toll" "home")) 7 := by
  refine settles_of_coe (by norm_num) rfl
    (fun j s hs => get_valuesAfter_tollRoad j (mem_undecided_tollRoad.mp hs).2) (fun s hs => ?_) fun j hj => ?_
  · have all : min 7 s.val = min 6 s.val := by have := (mem_undecided_tollRoad.mp hs).2; omega
    rw [all, sub_self, abs_zero]
    norm_num
  · -- The state behind the next gate has one toll more.
    refine ⟨⟨j + 1, by omega⟩, mem_undecided_tollRoad.mpr ⟨Nat.succ_pos j, Nat.succ_lt_succ hj⟩, ?_⟩
    have new : min (j + 1) (j + 1) = j + 1 := Nat.min_self _
    have old : min j (j + 1) = j := Nat.min_eq_left (Nat.le_succ j)
    rw [new, old]
    norm_num

/-- The costs of the shortcut are infinite, and those of the way over the gates are not overestimated: all
tolls of the way have been collected after six rounds, which the seventh round finds out. -/
theorem check_collects_tollRoad :
    ∃ result, check ⟨((1 / 10 : ℝ) : EReal), 7⟩ tollRoad ⟨.reward "toll" "home", ⟨.less, ⊤⟩⟩ = .ok result ∧
      ∃ rounds values, result = .quantitative values ∧
        AnswersAfter ⟨((1 / 10 : ℝ) : EReal), 7⟩ tollRoad ⟨.reward "toll" "home", ⟨.less, ⊤⟩⟩ rounds values ∧
        values.get 7 = ⊤ ∧ values.get 0 = 0 ∧ values.get 6 = ((6 : ℝ) : EReal) ∧
        values.get 6 = (tollRoad.rewardWithin ((Formula.reward "toll" "home").goal tollRoad.labelling)
          (tollRoad.rewardOf "toll") rounds 6 : EReal) ∧
        values.get 6 ≤ (tollRoad.expectedReward ((Formula.reward "toll" "home").goal tollRoad.labelling)
          (tollRoad.rewardOf "toll") 6 : EReal) := by
  have known : (Formula.reward "toll" "home").Known tollRoad.labelling := ⟨rfl, by rintro _ ⟨⟩⟩
  have inner : ¬ Property.Extreme (⟨.reward "toll" "home", ⟨.less, ⊤⟩⟩ : Property EReal) := by
    rintro ⟨⟨⟩, -⟩
  have answer := (iterates known (by rintro _ ⟨⟩; rfl) inner ⟨((1 / 10 : ℝ) : EReal), 7⟩).trans
    (values_eq_ok.mpr ⟨7, le_rfl, settles_tollRoad, rfl⟩)
  have rewards (s : Fin 9) : 0 ≤ tollRoad.rewardAt "toll" s ∧ tollRoad.rewardAt "toll" s < ⊤ := by
    rw [rewardAt_tollRoad]
    split
    · exact ⟨le_rfl, EReal.coe_lt_top 0⟩
    · exact ⟨zero_le_one, EReal.coe_lt_top 1⟩
  obtain ⟨rounds, values, e, after, found⟩ := check_collects stochastic_tollRoad rewards answer
  have six : values.get 6 = ((6 : ℝ) : EReal) := by
    obtain rfl := CheckResult.quantitative.inj e
    exact (get_valuesAfter_tollRoad 7 (by decide)).trans (by norm_num)
  have finite : values.get 6 ≠ ⊤ := six ▸ EReal.coe_ne_top 6
  refine ⟨_, answer, rounds, values, e, after, (found 7).1.mpr ⟨8, ?_, ?_⟩, (found 0).2.1 rfl, six,
    (found 6).2.2.1 finite, (found 6).2.2.2.1⟩
  · have shortcut : tollRoad.row 7 = [⟨0, Scalar.half⟩, ⟨8, Scalar.half⟩] := row_tollRoad 7
    refine Chain.Path.head (by rintro ⟨⟩) ?_ .refl
    rw [Chain.successors, shortcut]
    exact List.mem_cons_of_mem _ List.mem_cons_self
  · -- The ditch is never left.
    have ditch : tollRoad.row 8 = [⟨8, 1⟩] := row_tollRoad 8
    intro u hu path
    have stays : u = 8 := by
      refine path.tailInduction (motive := fun u => u = 8) rfl ?_
      rintro x y - - hy rfl
      rw [Chain.successors, ditch] at hy
      exact List.mem_singleton.mp hy
    rw [stays] at hu
    cases hu

end Checker

end HoleBlame
