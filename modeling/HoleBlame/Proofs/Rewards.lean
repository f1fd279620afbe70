import HoleBlame.Proofs.Binary64
import HoleBlame.Proofs.Drafts
import HoleBlame.Proofs.Restoring
import HoleBlame.Proofs.Soundness

/-!
# Explanations of expected rewards

When nothing is known in advance, a state of a shortened chain that is not expanded collects a reward
that is trivially right and moves to the target.  As long as no reward of the member is negative, this
errs in favour of the property, in every round of the iteration:

* the reward is zero if the property bounds from above, and then no state of the shortened chain has
  a larger value than it has in the member (`Shortcut.Shortens.valuesAfter_lift_le`);
* the reward is infinite if the property bounds from below.  An infinite value spreads to all states
  before it, so if the initial state keeps a finite one, then all states that a run can pass through
  are expanded (`Shortcut.Shortens.revealed`), and they have the values that they have in the member.

What an iteration ends with depends on its rounds, and the iteration of the member may take more or
fewer of them than that of the shortened chain.  Values grow with the rounds.  So an explanation is
confirmed by every checker that takes at least as many rounds for the member if the property bounds
from above, and at most as many if it bounds from below (`Explanation.violates_of_rewards_nonneg`).

With a negative reward none of this is true, and there are explanations of violations that do not
exist (`Explanation.explain_refund`).
-/

namespace HoleBlame

variable {α : Type} {n : Nat}

open Scalar.Monotone

/-! ## The values of a chain without negative rewards -/

namespace Chain

variable [Scalar α] {c : Chain α n} {f : Formula} {s t : Fin n}

/-- A state that may miss the target collects rewards for ever. -/
theorem valuesAfter_of_not_sure (hf : f.kind = .reward) (hs : ¬ c.Sure (f.goal c.labelling) s)
    (rounds : Nat) : (c.valuesAfter f rounds).get s = Scalar.infinity := by
  rw [valuesAfter_of_not_mem fun h => hs ((mem_undecided_reward hf).mp h).1,
    get_firstValues_reward hf, if_neg hs]

/-- Nothing is collected in a target. -/
theorem valuesAfter_of_target (hf : f.kind = .reward) (hs : (f.goal c.labelling).target s)
    (rounds : Nat) : (c.valuesAfter f rounds).get s = 0 := by
  rw [valuesAfter_of_not_mem fun h => ((mem_undecided_reward hf).mp h).2 hs,
    get_firstValues_reward hf, if_pos (.of_target hs)]

variable [Scalar.Monotone α]

theorem firstValues_nonneg : 0 ≤ (c.firstValues f).get s := by
  cases hf : f.kind with
  | probability =>
    rw [get_firstValues_probability hf]
    split
    · exact zero_le_one
    · exact zero_le_zero
  | reward =>
    rw [get_firstValues_reward hf]
    split
    · exact zero_le_zero
    · exact zero_le_infinity

variable (proper : c.Proper) (nonneg : ∀ s ∈ c.undecided f, 0 ≤ c.collected f s)
include proper nonneg

theorem valuesAfter_nonneg (rounds : Nat) (s : Fin n) : 0 ≤ (c.valuesAfter f rounds).get s :=
  Checker.table_nonneg proper nonneg (fun _ => firstValues_nonneg) rounds s

theorem valuesAfter_le_valuesAfter {rounds rounds' : Nat} (h : rounds ≤ rounds') (s : Fin n) :
    (c.valuesAfter f rounds).get s ≤ (c.valuesAfter f rounds').get s :=
  Checker.table_le_table proper nonneg (fun _ => firstValues_nonneg)
    (fun _ => get_firstValues_of_mem) h s

/-- **A state whose value is finite when the values settle has only such successors.** -/
theorem lt_infinity_of_successor {k : Checker α} {rounds : Nat}
    (settles : k.SettlesAfter c f rounds)
    (precise : k.precision < Scalar.infinity) (hs : s ∈ c.undecided f) (ht : t ∈ c.successors s)
    (finite : (c.valuesAfter f rounds).get s < Scalar.infinity) :
    (c.valuesAfter f rounds).get t < Scalar.infinity := by
  have values_nonneg := valuesAfter_nonneg proper nonneg
  rcases lt_or_le (values_nonneg rounds t) zero_le_infinity with h | infinite
  · exact h
  · obtain ⟨before, rfl⟩ : ∃ before, rounds = before + 1 :=
      ⟨rounds - 1, by have := settles.pos; omega⟩
    -- An infinite value has been there a round before, and by now it has reached the state.
    have earlier : Scalar.infinity ≤ (c.valuesAfter f before).get t := by
      by_cases undecided : t ∈ c.undecided f
      · exact settles.infinity_le precise (values_nonneg before t) undecided infinite
      · rwa [valuesAfter_of_not_mem undecided] at infinite ⊢
    have reached := Checker.infinity_le_update proper (nonneg s hs) (values_nonneg before) ht earlier
    rw [← valuesAfter_succ_of_mem hs] at reached
    exact absurd finite (not_lt_of_le reached)

end Chain

/-! ## Shortened chains -/

namespace Shortcut.Shortens

variable [Scalar α] {m : Member α n} {model label : String} {b : Bound α} {target : StateSet n}
  {x : Shortcut α n} {s : Fin n} (h : x.Shortens m .unknown ⟨.reward model label, b⟩ target)
include h

theorem row_of_not_mem (hs : s ∉ x.expanded) : x.chain.row (lift s) = [⟨sinkTrue n, 1⟩] := by
  rw [h.row_lift, if_neg hs]
  rfl

/-- A state that is not expanded collects what is trivially right. -/
theorem collected_of_not_mem (hs : s ∉ x.expanded) :
    x.chain.collected x.property.formula (lift s) =
      BoundKind.reward.trivial b.comparison.isUpper := by
  rw [Chain.collected_reward h.model?, h.rewardAt_lift rfl, if_neg hs, get_bounds_unknown]
  rfl

theorem target_lift_iff : x.goal.target (lift s) ↔
    ((Formula.reward model label).goal m.chain.labelling).target s := by
  rw [h.target_lift]
  simp

/-- A state that is sure of the target in the member is sure of it in the shortened chain. -/
theorem sure_lift (hs : m.chain.Sure ((Formula.reward model label).goal m.chain.labelling) s) :
    x.chain.Sure x.goal (lift s) := by
  have like := h.likeness (by rintro ⟨⟩) (by simp) (Likeness.refl (· ∈ x.expanded)) id
  refine like.sure_of_high ?_ ⟨s, rfl, rfl⟩ hs
  rintro _ _ ⟨t, rfl, rfl⟩ hidden - allowed
  refine h.sure_of_successors ?_ allowed
  rw [Chain.successors, h.row_of_not_mem fun ht => hidden ⟨t, ht, rfl⟩]
  rfl

theorem mem_undecided_lift (hs : s ∈ m.chain.undecided (.reward model label)) :
    lift s ∈ x.chain.undecided x.property.formula := by
  obtain ⟨sure, not_target⟩ := (Chain.mem_undecided_reward rfl).mp hs
  exact (Chain.mem_undecided_reward h.kind).mpr
    ⟨h.sure_lift sure, fun ht => not_target (h.target_lift_iff.mp ht)⟩

variable [Scalar.Monotone α]

theorem proper (proper : m.chain.Proper) : x.chain.Proper := by
  have certain {y : Fin (n + 2)} {e : Edge α (n + 2)} (he : e ∈ [⟨y, 1⟩]) :
      0 < e.prob ∧ e.prob < Scalar.infinity := by
    obtain rfl := List.mem_singleton.mp he
    exact ⟨Scalar.Ordered.zero_lt_one, one_lt_infinity⟩
  intro y e he
  rcases lift_or_sink y with ⟨s, rfl⟩ | rfl | rfl
  · by_cases hs : s ∈ x.expanded
    · rw [h.row_lift, if_pos hs] at he
      obtain ⟨e, he', rfl⟩ := List.mem_map.mp he
      exact proper s e he'
    · rw [h.row_of_not_mem hs] at he
      exact certain he
  · rw [h.row_sinkFalse] at he
    exact certain he
  · rw [h.row_sinkTrue] at he
    exact certain he

theorem collected_nonneg (nonneg : ∀ s, 0 ≤ m.chain.rewardAt model s) :
    ∀ y ∈ x.chain.undecided x.property.formula, 0 ≤ x.chain.collected x.property.formula y := by
  intro y hy
  rcases lift_or_sink y with ⟨s, rfl⟩ | rfl | rfl
  · by_cases hs : s ∈ x.expanded
    · rw [h.collected_lift hs]
      exact nonneg s
    · rw [h.collected_of_not_mem hs]
      cases b.comparison.isUpper with
      | true => exact zero_le_zero
      | false => exact zero_le_infinity
  · exact absurd hy h.sinkFalse_not_mem_undecided
  · exact absurd hy h.sinkTrue_not_mem_undecided

variable (proper : m.chain.Proper) (nonneg : ∀ s, 0 ≤ m.chain.rewardAt model s)
include proper nonneg

theorem valuesAfter_nonneg (rounds : Nat) (y : Fin (n + 2)) : 0 ≤ (x.valuesAfter rounds).get y :=
  Chain.valuesAfter_nonneg (h.proper proper) (h.collected_nonneg nonneg) rounds y

/-! ### Upper bounds -/

/-- A state takes a smaller value in the shortened chain, from smaller values. -/
theorem update_lift_le (hb : b.comparison.isUpper = true) {values : Vector α (n + 2)}
    {values' : Vector α n} (sink : values.get (sinkTrue n) = 0)
    (values_nonneg : ∀ t, 0 ≤ values.get (lift t))
    (le : ∀ t, values.get (lift t) ≤ values'.get t) (s : Fin n) :
    Checker.update x.chain (x.chain.collected x.property.formula) values (lift s) ≤
      Checker.update m.chain (m.chain.collected (.reward model label)) values' s := by
  by_cases expanded : s ∈ x.expanded
  · have terms (e : Edge α n) (he : e ∈ m.chain.row s) : 0 ≤ e.prob * values.get (lift e.next) :=
      mul_nonneg (proper s e he).1 (proper s e he).2 (values_nonneg e.next)
    rw [h.update_lift expanded, Checker.update]
    refine add_le_add (nonneg s) (le_refl (nonneg s)) (sumOver_nonneg terms)
      (sumOver_le_sumOver terms fun e he => ?_)
    exact mul_le_mul (proper s e he).1 (proper s e he).2 (values_nonneg e.next) (le e.next)
  · -- Nothing is collected on the way to the sink.
    have idle : Checker.update x.chain (x.chain.collected x.property.formula) values (lift s) ≤
        0 := by
      rw [Checker.update, h.collected_of_not_mem expanded, h.row_of_not_mem expanded, hb]
      show 0 + (Scalar.emptySum + 1 * values.get (sinkTrue n)) ≤ 0
      rw [sink]
      exact Scalar.Monotone.idle
    have values_nonneg' (t : Fin n) : 0 ≤ values'.get t := le_trans (values_nonneg t) (le t)
    exact le_trans idle (Checker.update_nonneg proper (nonneg s) values_nonneg')

/-- A state whose value the graph decides in the member has at most this value. -/
theorem valuesAfter_lift_le_of_not_mem (hs : s ∉ m.chain.undecided (.reward model label))
    (rounds : Nat) : (x.valuesAfter rounds).get (lift s) ≤
      (m.chain.valuesAfter (.reward model label) rounds).get s := by
  by_cases sure : m.chain.Sure ((Formula.reward model label).goal m.chain.labelling) s
  · have ht : ((Formula.reward model label).goal m.chain.labelling).target s := by
      by_contra ht
      exact hs ((Chain.mem_undecided_reward rfl).mpr ⟨sure, ht⟩)
    rw [Chain.valuesAfter_of_target h.kind (h.target_lift_iff.mpr ht),
      Chain.valuesAfter_of_target rfl ht]
    exact zero_le_zero
  · rw [Chain.valuesAfter_of_not_sure rfl sure]
    exact le_infinity (h.valuesAfter_nonneg proper nonneg rounds (lift s))

/-- **Under an upper bound, states of a shortened chain have smaller values than in the member.** -/
theorem valuesAfter_lift_le (hb : b.comparison.isUpper = true) (rounds : Nat) (s : Fin n) :
    (x.valuesAfter rounds).get (lift s) ≤
      (m.chain.valuesAfter (.reward model label) rounds).get s := by
  induction rounds generalizing s with
  | zero =>
    by_cases hs : s ∈ m.chain.undecided (.reward model label)
    · show (x.chain.firstValues x.property.formula).get (lift s) ≤
        (m.chain.firstValues (.reward model label)).get s
      rw [Chain.get_firstValues_of_mem hs, Chain.get_firstValues_of_mem (h.mem_undecided_lift hs)]
      exact zero_le_zero
    · exact h.valuesAfter_lift_le_of_not_mem proper nonneg hs 0
  | succ rounds ih =>
    by_cases hs : s ∈ m.chain.undecided (.reward model label)
    · rw [Chain.valuesAfter_succ_of_mem hs,
        Chain.valuesAfter_succ_of_mem (h.mem_undecided_lift hs)]
      exact h.update_lift_le proper nonneg hb
        (Chain.valuesAfter_of_target h.kind h.target_sinkTrue rounds)
        (fun t => h.valuesAfter_nonneg proper nonneg rounds (lift t)) ih s
    · exact h.valuesAfter_lift_le_of_not_mem proper nonneg hs (rounds + 1)

/-! ### Lower bounds -/

omit proper nonneg in
theorem mem_undecided_of_finite {rounds : Nat}
    (finite : (x.valuesAfter rounds).get (lift s) < Scalar.infinity)
    (hs : ¬ ((Formula.reward model label).goal m.chain.labelling).target s) :
    lift s ∈ x.chain.undecided x.property.formula := by
  refine (Chain.mem_undecided_reward h.kind).mpr ⟨?_, fun ht => hs (h.target_lift_iff.mp ht)⟩
  by_contra sure
  rw [Chain.valuesAfter_of_not_sure h.kind sure] at finite
  exact Scalar.Ordered.lt_irrefl _ finite

section Lower

variable (hb : b.comparison.isUpper = false) {k : Checker α} {rounds : Nat}
  (settles : k.SettlesAfter x.chain x.property.formula rounds)
include hb settles

/-- Under a lower bound, a state that keeps a finite value is expanded. -/
theorem mem_expanded_of_finite
    (finite : (x.valuesAfter rounds).get (lift s) < Scalar.infinity)
    (hs : ¬ ((Formula.reward model label).goal m.chain.labelling).target s) : s ∈ x.expanded := by
  by_contra hidden
  obtain ⟨before, rfl⟩ : ∃ before, rounds = before + 1 :=
    ⟨rounds - 1, by have := settles.pos; omega⟩
  have infinite : (Scalar.infinity : α) ≤ x.chain.collected x.property.formula (lift s) := by
    rw [h.collected_of_not_mem hidden, hb]
    exact le_refl zero_le_infinity
  have reached := Checker.infinity_le_update_of_reward (h.proper proper)
    (h.valuesAfter_nonneg proper nonneg before) infinite
  rw [← Chain.valuesAfter_succ_of_mem (h.mem_undecided_of_finite finite hs)] at reached
  exact not_lt_of_le reached finite

variable (precise : k.precision < Scalar.infinity)
  (finite : (x.valuesAfter rounds).get (lift m.chain.initial) < Scalar.infinity)
include precise finite

/-- Along a path the values stay finite. -/
theorem finite_of_path (path : m.chain.Path
    (fun t => ¬ ((Formula.reward model label).goal m.chain.labelling).target t)
    m.chain.initial s) : (x.valuesAfter rounds).get (lift s) < Scalar.infinity := by
  refine path.tailInduction (motive := fun s =>
    (x.valuesAfter rounds).get (lift s) < Scalar.infinity) finite ?_
  intro t u _ ht hu finite
  refine Chain.lt_infinity_of_successor (h.proper proper) (h.collected_nonneg nonneg) settles
    precise (h.mem_undecided_of_finite finite ht) ?_ finite
  have expanded := h.mem_expanded_of_finite proper nonneg hb settles finite ht
  exact (h.mem_successors_lift expanded).mpr ⟨u, hu, rfl⟩

/-- **Under a lower bound, all that a run can pass through is expanded if the initial state keeps a finite
value.** -/
theorem revealed : x.Revealed m .unknown ⟨.reward model label, b⟩ target fun s => m.chain.Path
    (fun t => ¬ ((Formula.reward model label).goal m.chain.labelling).target t)
    m.chain.initial s where
  shortens := h
  constraint := by rintro ⟨⟩
  targets := by simp
  expanded := by
    intro s path hs
    have finite := h.finite_of_path proper nonneg hb settles precise finite path
    exact h.mem_expanded_of_finite proper nonneg hb settles finite hs
  successor := fun s path hs t ht => path.tail hs ht

end Lower

/-! ### Verdicts -/

/-- **A bound that fails in a shortened chain fails in the member**, after at least as many rounds if it is
an upper bound, and after at most as many if it is a lower bound. -/
theorem violated_of_rounds {k : Checker α} {rounds rounds' : Nat}
    (settles : k.SettlesAfter x.chain x.property.formula rounds)
    (precise : k.precision < Scalar.infinity)
    (violated : b.holds ((x.valuesAfter rounds).get (lift m.chain.initial)) = false)
    (order : if b.comparison.isUpper then rounds ≤ rounds' else rounds' ≤ rounds) :
    b.holds ((m.chain.valuesAfter (.reward model label) rounds').get m.chain.initial) = false := by
  have grows {rounds rounds' : Nat} (hle : rounds ≤ rounds') :=
    Chain.valuesAfter_le_valuesAfter (f := .reward model label) proper (fun s _ => nonneg s) hle
      m.chain.initial
  have values_nonneg := h.valuesAfter_nonneg proper nonneg
  have values_nonneg' := Chain.valuesAfter_nonneg (f := .reward model label) proper fun s _ => nonneg s
  rw [← Bool.not_eq_true] at violated ⊢
  intro holds
  refine violated ?_
  cases hb : b.comparison.isUpper with
  | true =>
    rw [hb] at order
    have le := le_trans (h.valuesAfter_lift_le proper nonneg hb rounds m.chain.initial) (grows order)
    exact (Bound.holds_of_le le).1 hb holds
  | false =>
    rw [hb] at order
    rcases lt_or_le (values_nonneg rounds (lift m.chain.initial)) zero_le_infinity with
      finite | infinite
    · have revealed := h.revealed proper nonneg hb settles precise finite
      rw [revealed.valuesAfter_lift rounds .refl]
      exact (Bound.holds_of_le (grows order)).2 hb holds
    · have le := le_trans (le_infinity (values_nonneg' rounds' m.chain.initial)) infinite
      exact (Bound.holds_of_le le).2 hb holds

end Shortcut.Shortens

/-! ## Chains that have been accepted -/

namespace Draft

theorem lt_infinity_of_validProbability {prob : Float} (h : validProbability prob = true) :
    0 < prob ∧ prob < Scalar.infinity := by
  obtain ⟨pos, le⟩ : 0 < prob ∧ prob ≤ 1 + stochasticTolerance := by
    simpa [validProbability] using h
  have finite : 1 + stochasticTolerance < Scalar.infinity := by decide +kernel
  refine ⟨pos, ?_⟩
  rcases Scalar.Ordered.le_iff.mp le with hlt | heq
  · exact Scalar.Ordered.lt_trans hlt finite
  · exact Scalar.Ordered.lt_of_beq_of_lt heq finite

/-- The probabilities of a chain that has been accepted are positive and finite. -/
theorem proper_of_finish {d : Draft} {initial : Nat} {c : Chain Float n}
    (h : d.finish initial = .ok ⟨n, c⟩) : c.Proper := by
  intro s e he
  exact lt_infinity_of_validProbability ((finish_eq_ok_iff.mp h).valid_row he)

end Draft

/-! ## Explanations -/

namespace Explanation

variable {h : Nat}

/-- **Without negative rewards, a violation of an expected reward that is explained is there.**  The
search has stopped at a shortened chain that violates the property after some rounds, and so does
the chain itself after at least as many rounds if the property bounds from above, and after at most as
many if it bounds from below. -/
theorem violates_of_rewards_nonneg {d : Draft} {initial : Nat} {m : Member Float n}
    {table : HoleTable h} {k : Checker Float} {o : SearchOptions} {model label : String}
    {b : Bound Float} {e : Explanation h} (accepted : d.finish initial = .ok ⟨n, m.chain⟩)
    (nonneg : ∀ s, 0 ≤ m.chain.rewardAt model s) (precise : k.precision < Scalar.infinity)
    (he : explain k o ⟨m, table, .unknown⟩ ⟨.reward model label, b⟩ = .ok e)
    (found : e.conservative = false) :
    ∃ x rounds values,
      shortcutAt ⟨m, table, .unknown⟩ ⟨.reward model label, b⟩ e.stoppingWave = .ok x ∧
      k.AnswersAfter x.chain x.property rounds values ∧
      b.holds (values.get x.chain.initial) = false ∧
      ∀ (k' : Checker Float) (rounds' : Nat) (values' : Vector Float n),
        k'.AnswersAfter m.chain ⟨.reward model label, b⟩ rounds' values' →
        (if b.comparison.isUpper then rounds ≤ rounds' else rounds' ≤ rounds) →
        k'.Violates m.chain ⟨.reward model label, b⟩ := by
  obtain ⟨x, hx, r, hr, violated⟩ := violates_of_explain he found
  obtain ⟨target, shortens⟩ := shortens_of_shortcutAt hx
  have inner : ¬ Property.Extreme (⟨.reward model label, b⟩ : Property Float) := by
    rintro ⟨⟨⟩, -⟩
  have inner_x := shortens.extreme_iff.not.mpr inner
  obtain ⟨known, exact⟩ := Checker.known_of_check hr
  obtain ⟨rounds, answers, rfl⟩ := (Checker.iterates known exact inner_x).exists_answersAfter hr
  have bound_eq : x.property.bound = b := by rw [shortens.property]; rfl
  rw [CheckResult.satisfies, bound_eq] at violated
  refine ⟨x, rounds, _, hx, answers, violated, fun k' rounds' values' answers' order => ?_⟩
  refine ⟨_, answers'.answer, ?_⟩
  obtain ⟨-, rfl⟩ := answers'.settles inner
  rw [shortens.initial] at violated
  exact shortens.violated_of_rounds (Draft.proper_of_finish accepted) nonneg
    (answers.settles inner_x).1 precise violated order

/-- A road of two stretches, the second of which has the given cost. -/
def road (cost : Float) : Draft :=
  [.transition 0 1 1, .transition 1 1 2, .transition 2 1 2, .reward "cost" 0 3, .reward "cost" 1 cost,
    .labelled 2 "target"].foldl Draft.state (.ofSize 3)

/-- The chain of a road. -/
def roadChain (cost : Float) : Chain Float 3 where
  initial := ⟨0, by decide⟩
  rows := Draft.rowsOf ((road cost).edges 3)
  labelling := (road cost).labelling 3
  reward := (road cost).rewardModel? 3

/-- The second stretch depends on hole 0. -/
def stretches : HoleTable 1 :=
  .ofSets [.empty 1, .ofFn fun _ => true, .empty 1]

/-- The costs of a road whose second stretch costs five are too high. -/
theorem violates_road :
    (road 5).finish 0 = .ok ⟨3, roadChain 5⟩ ∧
      explain .standard ⟨1, .fail, by decide⟩ ⟨.identity (roadChain 5), stretches, .unknown⟩
        ⟨.reward "cost" "target", ⟨.lessEqual, 4⟩⟩ = .ok ⟨.ofList [0], 1, 2, 2, false⟩ ∧
      ∃ x rounds values,
        shortcutAt ⟨.identity (roadChain 5), stretches, .unknown⟩
          ⟨.reward "cost" "target", ⟨.lessEqual, 4⟩⟩ 1 = .ok x ∧
        Checker.standard.AnswersAfter x.chain x.property rounds values ∧
        (⟨.lessEqual, 4⟩ : Bound Float).holds (values.get x.chain.initial) = false ∧
        ∀ (k' : Checker Float) (rounds' : Nat) (values' : Vector Float 3),
          k'.AnswersAfter (roadChain 5) ⟨.reward "cost" "target", ⟨.lessEqual, 4⟩⟩ rounds' values' →
          rounds ≤ rounds' →
          k'.Violates (roadChain 5) ⟨.reward "cost" "target", ⟨.lessEqual, 4⟩⟩ := by
  have accepted : (road 5).finish 0 = .ok ⟨3, roadChain 5⟩ := eq_ok_of_toOption (by decide +kernel)
  have he : explain .standard ⟨1, .fail, by decide⟩
      ⟨.identity (roadChain 5), stretches, .unknown⟩
      ⟨.reward "cost" "target", ⟨.lessEqual, 4⟩⟩ = .ok ⟨.ofList [0], 1, 2, 2, false⟩ :=
    eq_ok_of_toOption (by decide +kernel)
  exact ⟨accepted, he, violates_of_rewards_nonneg (m := .identity (roadChain 5)) accepted
    (by decide +kernel) (by decide +kernel) he rfl⟩

/-- **With negative rewards, violations are explained that do not exist.**  If something is paid back on
the second stretch, the first one alone costs too much, but the whole road does not. -/
theorem explain_refund :
    (road (-5)).finish 0 = .ok ⟨3, roadChain (-5)⟩ ∧
      (∃ e, explain .standard ⟨1, .fail, by decide⟩
        ⟨.identity (roadChain (-5)), stretches, .unknown⟩
        ⟨.reward "cost" "target", ⟨.lessEqual, 1⟩⟩ = .ok e ∧ e.conservative = false) ∧
      Checker.standard.Satisfies (roadChain (-5)) ⟨.reward "cost" "target", ⟨.lessEqual, 1⟩⟩ := by
  have accepted : (road (-5)).finish 0 = .ok ⟨3, roadChain (-5)⟩ :=
    eq_ok_of_toOption (by decide +kernel)
  have he : explain .standard ⟨1, .fail, by decide⟩
      ⟨.identity (roadChain (-5)), stretches, .unknown⟩
      ⟨.reward "cost" "target", ⟨.lessEqual, 1⟩⟩ = .ok ⟨.empty 1, 0, 2, 1, false⟩ :=
    eq_ok_of_toOption (by decide +kernel)
  have satisfied : (Checker.standard.check (roadChain (-5))
      ⟨.reward "cost" "target", ⟨.lessEqual, 1⟩⟩).toOption.any
        (·.satisfies 0 ⟨.lessEqual, 1⟩) = true := by decide +kernel
  refine ⟨accepted, ⟨_, he, rfl⟩, ?_⟩
  cases hr : Checker.standard.check (roadChain (-5)) ⟨.reward "cost" "target", ⟨.lessEqual, 1⟩⟩ with
  | error error =>
    rw [hr] at satisfied
    cases satisfied
  | ok r =>
    rw [hr] at satisfied
    exact ⟨r, hr, satisfied⟩

end Explanation

end HoleBlame
