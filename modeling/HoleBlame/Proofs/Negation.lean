import HoleBlame.Drn.Reader
import HoleBlame.Proofs.GivingUp
import HoleBlame.Proofs.Numerals
import HoleBlame.Proofs.Rewards

/-!
# Negated properties

A property and its negation bound the same value from opposite sides.  Which of them a state satisfies makes
no difference to how the value is found: the checker answers both with the same values, from the same
graph, or fails on both for the same reason (`Checker.check_negate_eq`, `Checker.check_negate_extreme`).

Of two opposite bounds a value satisfies exactly one if it is a number and the threshold is one, and
otherwise it satisfies neither (`Comparison.holds_ne_negate_iff`).  So this is what it takes for a state
to satisfy exactly one of the two properties (`Checker.check_negate_decides`).  The values of a
chain that has been accepted are numbers as long as no reward is negative or undefined, but rewards are not
looked at when a chain is accepted.  A state with an undefined reward satisfies neither property
(`Checker.check_negate_blank`).
-/

namespace HoleBlame

open Rounding

/-! ## Bounds -/

namespace Comparison

variable {c : Comparison} {x t : Float}

/-- Only numbers stand on a side of a threshold. -/
theorem isNaN_of_holds (h : c.holds x t = true) : x.isNaN = false ∧ t.isNaN = false := by
  have ordered {y z : Float} (h : y ≤ z) : y.isNaN = false ∧ z.isNaN = false := by
    rw [isNaN_eq_false_iff, isNaN_eq_false_iff]
    rcases Rank.le_iff_compare.mp h with compared | compared
    · exact Rank.ne_notANumber compared
    · exact Rank.ne_notANumber compared
  cases c with
  | less => exact ordered (Scalar.Monotone.le_of_lt (of_decide_eq_true h))
  | lessEqual => exact ordered (of_decide_eq_true h)
  | greater => exact (ordered (Scalar.Monotone.le_of_lt (of_decide_eq_true h))).symm
  | greaterEqual => exact (ordered (of_decide_eq_true h)).symm

/-- A number stands on exactly one side of a threshold. -/
theorem holds_negate (hx : x.isNaN = false) (ht : t.isNaN = false) :
    c.negate.holds x t = !c.holds x t := by
  have below := not_lt_iff (isNaN_eq_false_iff.mp hx) (isNaN_eq_false_iff.mp ht)
  have above := not_lt_iff (isNaN_eq_false_iff.mp ht) (isNaN_eq_false_iff.mp hx)
  cases c with
  | less | greater => simp only [negate, holds, ← decide_not, below, above]
  | lessEqual | greaterEqual => simp only [negate, holds, ← decide_not, ← below, ← above, not_not]

/-- **Of two opposite comparisons exactly one holds iff numbers are compared.** -/
theorem holds_ne_negate_iff :
    c.holds x t ≠ c.negate.holds x t ↔ x.isNaN = false ∧ t.isNaN = false := by
  constructor
  · intro ne
    cases h : c.holds x t with
    | true => exact isNaN_of_holds h
    | false =>
      rw [h] at ne
      exact isNaN_of_holds (c := c.negate) (Bool.eq_true_of_not_eq_false (Ne.symm ne))
  · rintro ⟨hx, ht⟩
    rw [holds_negate hx ht]
    exact Bool.self_ne_not _

end Comparison

variable {n : ℕ}

/-- The bound is compared with numbers: both the threshold and the value of the state, if the answer has
values. -/
def CheckResult.Decides (r : CheckResult Float n) (s : Fin n) (b : Bound Float) : Prop :=
  ∀ value, r.value? s = some value → value.isNaN = false ∧ b.threshold.isNaN = false

namespace Checker

variable {c : Chain Float n} {p : Property Float}

/-! ## Answers -/

/-- What is answered with values has nothing to do with the side of the bound. -/
theorem check_negate_eq (k : Checker Float) (inner : ¬ p.Extreme) :
    k.check c p.negate = k.check c p := by
  obtain ⟨formula, bound⟩ := p
  cases formula with
  | reward model target => rfl
  | probability constraint target =>
    have threshold : (bound.threshold == 0 || bound.threshold == 1) = false :=
      Bool.eq_false_of_not_eq_true fun extreme => inner ⟨rfl, extreme⟩
    simp only [check, Property.negate, Bound.negate, threshold, Bool.false_eq_true, if_false]

/-- What the graph decides is decided for both sides, or some label is unknown. -/
theorem check_negate_extreme (k : Checker Float) (extreme : p.Extreme) :
    (∃ e, k.check c p = .error e ∧ k.check c p.negate = .error e) ∨
      ∃ value : Fin n → Float, (∀ s, (value s).isNaN = false) ∧
        k.check c p = .ok (.qualitative (.ofFn fun s => p.bound.holds (value s))) ∧
        k.check c p.negate = .ok (.qualitative (.ofFn fun s => p.negate.bound.holds (value s))) := by
  obtain ⟨formula, bound⟩ := p
  cases formula with
  | reward model target => exact absurd extreme.1 (by rintro ⟨⟩)
  | probability constraint target =>
    cases unknown : (Formula.probability constraint target).unknown? c.labelling with
    | some name => exact .inl ⟨_, check_unknown k unknown, check_unknown k unknown⟩
    | none =>
      have known := Formula.known_of_unknown? unknown
      refine .inr ⟨c.chance ((Formula.probability constraint target).goal c.labelling), fun s => ?_,
        check_of_extreme k known extreme, check_of_extreme k known extreme⟩
      unfold Chain.chance
      split_ifs <;> decide +kernel

/-- Values that start from numbers and to which nothing negative is added are numbers. -/
theorem isNaN_valuesAfter {f : Formula} {rounds : ℕ} {s : Fin n} (proper : c.Proper)
    (nonneg : ∀ model, f.model? = some model → ∀ s, 0 ≤ c.rewardAt model s) :
    ((c.valuesAfter f rounds).get s).isNaN = false := by
  have collected (s : Fin n) : 0 ≤ c.collected f s := by
    cases hf : f.model? with
    | none =>
      rw [Chain.collected_probability (Formula.kind_of_model?_eq_none hf)]
      exact Scalar.Monotone.zero_le_zero
    | some model =>
      rw [Chain.collected_reward hf]
      exact nonneg model hf s
  have value : 0 ≤ (c.valuesAfter f rounds).get s :=
    Chain.valuesAfter_nonneg proper (fun s _ => collected s) rounds s
  exact (Comparison.isNaN_of_holds (c := .greaterEqual) (decide_eq_true value)).1

/-- **A property and its negation are opposites where numbers are compared.**  Checking them fails for
the same reason, or they have the same values; then a state satisfies exactly one of them iff the bound
is compared with numbers there.  It is in every state, unless the threshold is undefined or some
reward is negative or undefined. -/
theorem check_negate_decides {d : Draft} {initial : ℕ} (accepted : d.finish initial = .ok ⟨n, c⟩)
    (k : Checker Float) (p : Property Float) :
    (∃ e, k.check c p = .error e ∧ k.check c p.negate = .error e) ∨
      ∃ r r', k.check c p = .ok r ∧ k.check c p.negate = .ok r' ∧
        (∀ s, r.value? s = r'.value? s) ∧
        (∀ s, r.satisfies s p.bound ≠ r'.satisfies s p.negate.bound ↔ r.Decides s p.bound) ∧
        (p.bound.threshold.isNaN = false →
          (∀ model, p.formula.model? = some model → ∀ s, 0 ≤ c.rewardAt model s) →
            ∀ s, r.Decides s p.bound) := by
  by_cases extreme : p.Extreme
  · rcases check_negate_extreme k extreme with failed | ⟨value, defined, first, second⟩
    · exact .inl failed
    · have threshold : p.bound.threshold.isNaN = false := by
        rw [isNaN_eq_false_iff]
        rcases Bool.or_eq_true_iff.mp extreme.2 with same | same
        · exact (Rank.ne_notANumber (Rank.beq_iff_compare.mp same)).1
        · exact (Rank.ne_notANumber (Rank.beq_iff_compare.mp same)).1
      refine .inr ⟨_, _, first, second, fun s => rfl, fun s => ?_, fun _ _ s => by rintro _ ⟨⟩⟩
      refine iff_of_true ?_ (by rintro _ ⟨⟩)
      have opposite : p.bound.holds (value s) ≠ p.negate.bound.holds (value s) :=
        Comparison.holds_ne_negate_iff.mpr ⟨defined s, threshold⟩
      simpa [CheckResult.satisfies] using opposite
  · cases first : k.check c p with
    | error e => exact .inl ⟨e, rfl, (check_negate_eq k extreme).trans first⟩
    | ok r =>
      obtain ⟨known, model⟩ := known_of_check first
      obtain ⟨rounds, -, rfl⟩ := (iterates known model extreme).exists_answersAfter first
      refine .inr ⟨_, _, rfl, (check_negate_eq k extreme).trans first, fun s => rfl, fun s => ?_,
        fun threshold nonneg s => ?_⟩
      · refine Comparison.holds_ne_negate_iff.trans ⟨?_, fun decides => decides _ rfl⟩
        rintro defined _ ⟨⟩
        exact defined
      · rintro _ ⟨⟩
        exact ⟨isNaN_valuesAfter (Draft.proper_of_finish accepted) nonneg, threshold⟩

/-- The costs of a road are too high or not, in every state. -/
theorem check_negate_road :
    (Explanation.road 5).finish 0 = .ok ⟨3, Explanation.roadChain 5⟩ ∧
      ∃ r r', Checker.standard.check (Explanation.roadChain 5)
          ⟨.reward "cost" "target", ⟨.lessEqual, 4⟩⟩ = .ok r ∧
        Checker.standard.check (Explanation.roadChain 5)
          ⟨.reward "cost" "target", ⟨.greater, 4⟩⟩ = .ok r' ∧
        ∀ s, r.satisfies s ⟨.lessEqual, 4⟩ ≠ r'.satisfies s ⟨.greater, 4⟩ := by
  have accepted : (Explanation.road 5).finish 0 = .ok ⟨3, Explanation.roadChain 5⟩ :=
    eq_ok_of_toOption (by decide +kernel)
  have answered : (Checker.standard.check (Explanation.roadChain 5)
      ⟨.reward "cost" "target", ⟨.lessEqual, 4⟩⟩).toOption.isSome = true := by decide +kernel
  refine ⟨accepted, ?_⟩
  rcases check_negate_decides accepted .standard ⟨.reward "cost" "target", ⟨.lessEqual, 4⟩⟩ with
    ⟨e, failed, -⟩ | ⟨r, r', first, second, -, opposite, decides⟩
  · rw [failed] at answered
    cases answered
  · have nonneg : ∀ s, 0 ≤ (Explanation.roadChain 5).rewardAt "cost" s := by decide +kernel
    refine ⟨r, r', first, second, fun s => (opposite s).mpr (decides (by decide +kernel) ?_ s)⟩
    rintro _ ⟨⟩
    exact nonneg

/-- A road of one stretch with an undefined reward. -/
def blank : String :=
  "@type: DTMC\n@reward_models\ncost\n@nr_states\n2\n@model\nstate 0 [nan] init\naction 0\n1 : 1\n" ++
    "state 1 goal\naction 0\n1 : 1\n"

/-- **With undefined rewards, neither a property nor its negation is satisfied.**  Documents may state
such rewards. -/
theorem check_negate_blank : ∃ (n : ℕ) (c : Chain Float n) (r r' : CheckResult Float n),
    Drn.read blank.toUTF8.toList = .ok ⟨n, c⟩ ∧
      Checker.standard.check c ⟨.reward "cost" "goal", ⟨.greater, 1⟩⟩ = .ok r ∧
      Checker.standard.check c ⟨.reward "cost" "goal", ⟨.lessEqual, 1⟩⟩ = .ok r' ∧
      r.satisfies c.initial ⟨.greater, 1⟩ = false ∧ r'.satisfies c.initial ⟨.lessEqual, 1⟩ = false := by
  have computed : ((Drn.read blank.toUTF8.toList).toOption.bind fun read =>
      (Checker.standard.check read.2 ⟨.reward "cost" "goal", ⟨.greater, 1⟩⟩).toOption.map fun r =>
        (r.satisfies read.2.initial ⟨.greater, 1⟩, r.satisfies read.2.initial ⟨.lessEqual, 1⟩)) =
      some (false, false) := by
    decide +kernel
  obtain ⟨⟨n, c⟩, read, answered⟩ := Option.bind_eq_some_iff.mp computed
  obtain ⟨r, first, satisfied⟩ := Option.map_eq_some_iff.mp answered
  obtain ⟨above, below⟩ := Prod.mk.inj satisfied
  have inner : ¬ Property.Extreme (⟨.reward "cost" "goal", ⟨.greater, 1⟩⟩ : Property Float) := by
    rintro ⟨⟨⟩, -⟩
  exact ⟨n, c, r, r, eq_ok_of_toOption read, eq_ok_of_toOption first,
    (check_negate_eq .standard inner).trans (eq_ok_of_toOption first), above, below⟩

end Checker

end HoleBlame
