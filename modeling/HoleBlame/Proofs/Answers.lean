import HoleBlame.Proofs.Iteration
import HoleBlame.Proofs.Shortening

/-!
# What a checker answers

The graph of a chain answers a probability whose threshold is zero or one
(`Checker.check_qualitative`).  Any other answer is found by iteration over the states that the graph
leaves undecided (`Checker.iterates`): for a probability those that have a chance of the target without
being sure of it, and for an expected reward those that are sure of a target that they have not reached
yet.  All other states keep the value that the graph gives them.

Both are said of any chain, so also of a shortened one.
-/

namespace HoleBlame

variable {α : Type} {n : Nat}

namespace Chain

open Classical in
/-- The states whose value is not read off the graph. -/
noncomputable def undecided (c : Chain α n) (f : Formula) : StateSet n :=
  .ofFn fun s => match f with
    | .probability .. => c.Positive (f.goal c.labelling) s ∧ ¬ c.Sure (f.goal c.labelling) s
    | .reward .. => c.Sure (f.goal c.labelling) s ∧ ¬ (f.goal c.labelling).target s

section Undecided

variable {c : Chain α n} {f : Formula} {s : Fin n}

theorem mem_undecided_probability (hf : f.kind = .probability) : s ∈ c.undecided f ↔
    c.Positive (f.goal c.labelling) s ∧ ¬ c.Sure (f.goal c.labelling) s := by
  cases f with
  | probability => simp [undecided]
  | reward => cases hf

theorem mem_undecided_reward (hf : f.kind = .reward) : s ∈ c.undecided f ↔
    c.Sure (f.goal c.labelling) s ∧ ¬ (f.goal c.labelling).target s := by
  cases f with
  | probability => cases hf
  | reward => simp [undecided]

/-- Where the iteration has something to do, the target has not been reached yet. -/
theorem not_target_of_mem_undecided (hs : s ∈ c.undecided f) : ¬ (f.goal c.labelling).target s := by
  cases hf : f.kind with
  | probability =>
    intro ht
    exact ((mem_undecided_probability hf).mp hs).2 (.of_target ht)
  | reward => exact ((mem_undecided_reward hf).mp hs).2

end Undecided

variable [Scalar α]

open Classical in
/-- The values from which the iteration starts; those that the graph decides are final. -/
noncomputable def firstValues (c : Chain α n) (f : Formula) : Vector α n :=
  .ofFn fun s => match f with
    | .probability .. => if c.Sure (f.goal c.labelling) s then 1 else 0
    | .reward .. => if c.Sure (f.goal c.labelling) s then 0 else Scalar.infinity

/-- What is collected in a state whenever a run passes through it. -/
def collected (c : Chain α n) (f : Formula) : Fin n → α :=
  match f with
  | .probability .. => fun _ => 0
  | .reward model _ => c.rewardAt model

variable {c : Chain α n} {f : Formula} {s : Fin n}

open Classical in
theorem get_firstValues_probability (hf : f.kind = .probability) :
    (c.firstValues f).get s = if c.Sure (f.goal c.labelling) s then 1 else 0 := by
  cases f with
  | probability => exact get_ofFn _ _
  | reward => cases hf

open Classical in
theorem get_firstValues_reward (hf : f.kind = .reward) :
    (c.firstValues f).get s = if c.Sure (f.goal c.labelling) s then 0 else Scalar.infinity := by
  cases f with
  | probability => cases hf
  | reward => exact get_ofFn _ _

/-- The iteration starts from zero. -/
theorem get_firstValues_of_mem (hs : s ∈ c.undecided f) : (c.firstValues f).get s = 0 := by
  classical
  cases hf : f.kind with
  | probability =>
    rw [get_firstValues_probability hf, if_neg ((mem_undecided_probability hf).mp hs).2]
  | reward => rw [get_firstValues_reward hf, if_pos ((mem_undecided_reward hf).mp hs).1]

theorem collected_probability (hf : f.kind = .probability) : c.collected f s = 0 := by
  cases f with
  | probability => rfl
  | reward => cases hf

theorem collected_reward {model : String} (hf : f.model? = some model) :
    c.collected f s = c.rewardAt model s := by
  cases f with
  | probability => cases hf
  | reward =>
    cases hf
    rfl

/-- The values after a number of rounds of the iteration. -/
noncomputable abbrev valuesAfter (c : Chain α n) (f : Formula) (rounds : Nat) : Vector α n :=
  Checker.table c (c.collected f) (c.undecided f) (c.firstValues f) rounds

theorem valuesAfter_of_not_mem (hs : s ∉ c.undecided f) (rounds : Nat) :
    (c.valuesAfter f rounds).get s = (c.firstValues f).get s :=
  Checker.get_table_of_not_mem hs rounds

theorem valuesAfter_succ_of_mem (hs : s ∈ c.undecided f) (rounds : Nat) :
    (c.valuesAfter f (rounds + 1)).get s =
      Checker.update c (c.collected f) (c.valuesAfter f rounds) s := by
  rw [valuesAfter, Checker.table_succ, Checker.get_round_of_mem hs]

end Chain

/-- The property is a probability whose threshold is zero or one. -/
def Property.Extreme [Scalar α] (p : Property α) : Prop :=
  p.formula.kind = .probability ∧ (p.bound.threshold == 0 || p.bound.threshold == 1) = true

namespace Checker

variable [Scalar α] {c : Chain α n} {p : Property α} {k : Checker α} {s : Fin n}

/-! ## Answers from the graph -/

/-- **A probability whose threshold is zero or one is answered exactly.**  A state satisfies the
property iff the bound holds of zero, of one or of one half: of zero if no path leads to the target, of
one if no path through the constraint leads to a state from where none does, and of one half otherwise.
A target counts as reached even if it lies outside the constraint, and no other state outside the
constraint has a chance. -/
theorem check_qualitative (k : Checker α) {constraint : Option String} {target : String}
    {b : Bound α} (known : (Formula.probability constraint target).Known c.labelling)
    (extreme : (b.threshold == 0 || b.threshold == 1) = true) :
    ∃ satisfied, k.check c ⟨.probability constraint target, b⟩ = .ok (.qualitative satisfied) ∧
      ∀ s, let g := (Formula.probability constraint target).goal c.labelling
        (¬ c.Positive g s → (s ∈ satisfied ↔ b.holds 0 = true)) ∧
        (c.Sure g s → (s ∈ satisfied ↔ b.holds 1 = true)) ∧
        (c.Positive g s → ¬ c.Sure g s → (s ∈ satisfied ↔ b.holds Scalar.half = true)) ∧
        (c.Sure g s → c.Positive g s) ∧
        (g.target s → c.Sure g s) ∧
        (¬ g.target s → ¬ g.allowed s → ¬ c.Positive g s) := by
  refine ⟨_, check_eq_qualitative k known extreme, fun s => ?_⟩
  rw [StateSet.mem_ofFn]
  refine ⟨fun hp => ?_, fun hs => ?_, fun hp hs => ?_, Chain.Sure.positive, Chain.Sure.of_target,
    fun ht ha hp => ?_⟩
  · rw [Chain.chance, if_neg hp]
  · rw [Chain.chance, if_pos hs.positive, if_pos hs]
  · rw [Chain.chance, if_pos hp, if_neg hs]
  · rcases hp.target_or_successor with ht' | ⟨ha', -⟩
    · exact ht ht'
    · exact ha ha'

/-- The answer of the graph, for any property that it decides. -/
theorem check_of_extreme (k : Checker α) (known : p.formula.Known c.labelling)
    (extreme : p.Extreme) : k.check c p = .ok (.qualitative (.ofFn fun s =>
      p.bound.holds (c.chance (p.formula.goal c.labelling) s))) := by
  obtain ⟨formula, bound⟩ := p
  cases formula with
  | probability constraint target => exact check_eq_qualitative k known extreme.2
  | reward model target => exact absurd extreme.1 (by rintro ⟨⟩)

/-- A way to a goal by a safe road and by an unsafe one, which may also end in a ditch.  The goal itself
is not marked as safe. -/
def crossroads : Chain Float 7 where
  initial := 0
  rows := #v[[⟨1, 0.5⟩, ⟨3, 0.5⟩], [⟨1, 0.5⟩, ⟨2, 0.5⟩], [⟨6, 1⟩], [⟨4, 1⟩], [⟨5, 0.5⟩, ⟨6, 0.5⟩],
    [⟨5, 1⟩], [⟨6, 1⟩]]
  labelling := ((Labelling.empty 7).set "safe" (.ofList [0, 1, 2])).set "goal" (.ofList [6])
  reward := none

/-- At the crossroads one may or may not stay safe until the goal, so that it is not certain. -/
theorem check_crossroads :
    ∃ satisfied, Checker.standard.check crossroads
        ⟨.probability (some "safe") "goal", ⟨.greaterEqual, 1⟩⟩ = .ok (.qualitative satisfied) ∧
      0 ∉ satisfied := by
  have known : (Formula.probability (some "safe") "goal").Known crossroads.labelling := by
    refine ⟨by decide +kernel, ?_⟩
    rintro name ⟨⟩
    decide +kernel
  obtain ⟨satisfied, checked, judged⟩ := check_qualitative (b := ⟨.greaterEqual, 1⟩)
    Checker.standard known (by decide +kernel)
  refine ⟨satisfied, checked, fun h => ?_⟩
  have computed : (Checker.standard.check crossroads
      ⟨.probability (some "safe") "goal", ⟨.greaterEqual, 1⟩⟩).toOption.any
        (·.satisfies 0 ⟨.greaterEqual, 1⟩) = false := by decide +kernel
  rw [checked] at computed
  simp [Except.toOption, CheckResult.satisfies, h] at computed

/-! ## Answers from iteration -/

/-- A property that the checker answers has its labels and its reward model in the chain. -/
theorem known_of_check {r : CheckResult α n} (h : k.check c p = .ok r) :
    p.formula.Known c.labelling ∧
      ∀ name, p.formula.model? = some name → (c.rewardModel? name).isSome = true := by
  have exists_label {name : String} {states : StateSet n} (h : label c name = .ok states) :
      (c.labelling.get? name).isSome = true := by
    unfold label at h
    split at h
    · next e => rw [e]; rfl
    · cases h
  obtain ⟨formula, bound⟩ := p
  cases formula with
  | probability constraint target =>
    simp only [check, bind, Except.bind] at h
    split at h
    · cases h
    · next ht =>
      split at h
      · cases h
      · next hc =>
        refine ⟨⟨exists_label ht, ?_⟩, fun _ h => by cases h⟩
        rintro name hn
        obtain rfl : constraint = some name := hn
        simp only [label?, Except.map] at hc
        split at hc
        · cases hc
        · next hl => exact exists_label hl
  | reward model target =>
    simp only [check, bind, Except.bind] at h
    split at h
    · cases h
    · next ht =>
      refine ⟨⟨exists_label ht, fun _ h => by cases h⟩, ?_⟩
      rintro name ⟨⟩
      cases hm : c.rewardModel? model with
      | none => simp [hm] at h
      | some rewards => rfl

/-- The values for a formula settle in a round. -/
abbrev SettlesAfter (k : Checker α) (c : Chain α n) (f : Formula) (rounds : Nat) : Prop :=
  k.Settles c (c.collected f) (c.undecided f) (c.firstValues f) rounds

/-- **An answer that the graph does not give is found by iteration.** -/
theorem iterates (known : p.formula.Known c.labelling)
    (model : ∀ name, p.formula.model? = some name → (c.rewardModel? name).isSome = true)
    (inner : ¬ p.Extreme) :
    Iterates c p (c.collected p.formula) (c.undecided p.formula) (c.firstValues p.formula) := by
  classical
  intro k
  obtain ⟨formula, bound⟩ := p
  cases formula with
  | probability constraint target =>
    obtain ⟨through, states, ht, hc, goal_eq⟩ := labels_of_known known
    have threshold : ¬ (bound.threshold == 0 || bound.threshold == 1) = true :=
      fun h => inner ⟨rfl, h⟩
    rw [check_probability k ht hc, if_neg threshold]
    congr 1
    · refine StateSet.ext fun s => ?_
      rw [StateSet.mem_compl, StateSet.mem_union, mem_never, mem_surely,
        Chain.mem_undecided_probability rfl, goal_eq, not_or, not_not]
    · refine ext_get fun s => ?_
      rw [Chain.get_firstValues_probability rfl, get_ofFn, ← goal_eq]
      exact if_congr mem_surely rfl rfl
  | reward name target =>
    obtain ⟨states, ht, hget⟩ := label_of_isSome known.target
    change label c target = .ok states at ht
    obtain ⟨rewards, hr⟩ := Option.isSome_iff_exists.mp (model name rfl)
    have goal_eq := goalOf_none (f := .reward name target) hget rfl
    rw [check_reward k ht hr]
    congr 1
    · funext s
      simp [Chain.collected, Chain.rewardAt, hr]
    · refine StateSet.ext fun s => ?_
      rw [StateSet.mem_inter, StateSet.mem_compl, mem_surely, Chain.mem_undecided_reward rfl, ← goal_eq]
      rfl
    · refine ext_get fun s => ?_
      rw [Chain.get_firstValues_reward rfl, get_ofFn, ← goal_eq]
      exact if_congr mem_surely rfl rfl

/-- **An answer with values is that of the round in which the values settle.** -/
theorem AnswersAfter.settles {rounds : Nat} {values : Vector α n}
    (h : k.AnswersAfter c p rounds values) (inner : ¬ p.Extreme) :
    k.SettlesAfter c p.formula rounds ∧ values = c.valuesAfter p.formula rounds := by
  obtain ⟨known, model⟩ := known_of_check h.answer
  exact ((iterates known model inner).answersAfter.mp h).2

end Checker

end HoleBlame
