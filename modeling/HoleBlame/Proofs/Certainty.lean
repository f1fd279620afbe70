import Mathlib.Tactic.NormNum
import HoleBlame.Proofs.Exact
import HoleBlame.Proofs.Answers

/-!
# Values from below

The iteration of a checker starts from below, with the states whose probability the graph decides, and
approaches the exact probabilities without ever exceeding them: what it finds in a number of rounds lies
between the probability of reaching the target within as many steps and the probability of reaching it
at all (`Checker.check_between`).

The lower bound is an induction on the rounds.  The upper bound needs that a state which the graph calls
sure has probability one (`Chain.Stochastic.untilProb_of_sure`).  Among the sure states take one with the
smallest probability.  It is the mean of the probabilities of its successors, which are sure as well, so
none of them can have a larger one; and so on along a path to the target, where the probability is one.
-/

namespace HoleBlame

open scoped ENNReal

variable {n : Nat}

namespace Chain

/-- Transitions have positive probabilities, and those of every state add up to one. -/
structure Stochastic (c : Chain EReal n) : Prop where
  prob_pos : ∀ s, ∀ e ∈ c.row s, 0 < e.prob
  sum_prob : ∀ s, ((c.row s).map Edge.prob).sum = 1

variable {c : Chain EReal n} {g : Goal n} {s : Fin n}

theorem mean_const (m : ℝ≥0∞) : c.mean (fun _ => m) s = m * c.mean (fun _ => 1) s := by
  simp only [mean, mul_one]
  rw [List.sum_map_mul_right, mul_comm]

/-- A state without a positive chance never reaches the target. -/
theorem untilProb_of_not_positive (hs : ¬ c.Positive g s) : c.untilProb g s = 0 := by
  classical
  have below := untilProb_le (c := c) (g := g) (v := fun s => if c.Positive g s then ⊤ else 0) ?_ s
  · rwa [if_neg hs, nonpos_iff_eq_zero] at below
  intro t
  right
  by_cases hp : c.Positive g t
  · rw [if_pos hp]
    exact le_top
  · have ht : ¬ g.target t := fun ht => hp (.of_target ht)
    rw [if_neg hp]
    by_cases ha : g.allowed t
    · -- No successor has a chance either.
      have none : c.mean (fun u => if c.Positive g u then ⊤ else 0) t ≤ c.mean (fun _ => 0) t := by
        refine mean_le_mean fun e he _ => ?_
        rw [if_neg fun hp' => hp (.of_successor ha (List.mem_map_of_mem he) hp')]
      rw [mean_const, zero_mul] at none
      rwa [untilStep_allowed ht ha]
    · rw [untilStep_excluded ht ha]

namespace Stochastic

variable (stochastic : c.Stochastic)
include stochastic

theorem mean_one (s : Fin n) : c.mean (fun _ => 1) s = 1 :=
  mean_one_of_sum (fun e he => (stochastic.prob_pos s e he).le) (stochastic.sum_prob s)

theorem toENNReal_ne_zero {e : Edge EReal n} (he : e ∈ c.row s) : e.prob.toENNReal ≠ 0 := by
  intro h
  exact absurd (EReal.toENNReal_eq_zero_iff.mp h) (not_le.mpr (stochastic.prob_pos s e he))

/-- A mean that is as small as the smallest value that it is taken of is taken of equal values. -/
theorem eq_of_mean_eq {v : Fin n → ℝ≥0∞} {m : ℝ≥0∞} (finite : m ≠ ⊤)
    (least : ∀ t ∈ c.successors s, m ≤ v t) (eq : c.mean v s = m) :
    ∀ t ∈ c.successors s, v t = m := by
  have split : c.mean v s = m + c.mean (fun t => v t - m) s := by
    have : c.mean v s = c.mean (fun t => m + (v t - m)) s := by
      refine le_antisymm (mean_le_mean fun e _ _ => le_add_tsub) (mean_le_mean fun e he _ => ?_)
      rw [add_tsub_cancel_of_le (least e.next (List.mem_map_of_mem he))]
    rw [this, mean_add, mean_const, stochastic.mean_one, mul_one]
  have none : c.mean (fun t => v t - m) s = 0 := by
    rw [eq] at split
    exact (ENNReal.add_right_inj finite).mp (by rw [← split, add_zero])
  intro t ht
  obtain ⟨e, he, rfl⟩ := List.mem_map.mp ht
  have term := mul_le_mean (v := fun t => v t - m) he
  rw [none, nonpos_iff_eq_zero, mul_eq_zero] at term
  have le : v e.next ≤ m :=
    tsub_eq_zero_iff_le.mp (term.resolve_left (stochastic.toENNReal_ne_zero he))
  exact le_antisymm le (least e.next ht)

/-! ## Certainty -/

/-- **A state that is sure of the target reaches it with probability one.** -/
theorem untilProb_of_sure (hs : c.Sure g s) : c.untilProb g s = 1 := by
  have le_one (t : Fin n) : c.untilProb g t ≤ 1 :=
    untilProb_le_one (fun t => (stochastic.mean_one t).le) t
  have : Nonempty { t // c.Sure g t } := ⟨⟨s, hs⟩⟩
  obtain ⟨⟨t, ht⟩, least⟩ := Finite.exists_min fun t : { t // c.Sure g t } => c.untilProb g t
  suffices one : c.untilProb g t = 1 from le_antisymm (le_one s) (one ▸ least ⟨s, hs⟩)
  by_contra not_one
  -- Along a path to the target the probability stays the smallest one.
  obtain ⟨u, hu, path⟩ := ht.positive
  have kept : c.Sure g u ∧ c.untilProb g u = c.untilProb g t := by
    refine path.tailInduction (motive := fun x => c.Sure g x ∧ c.untilProb g x = c.untilProb g t)
      ⟨ht, rfl⟩ ?_
    rintro x y - hx hy ⟨sure, eq⟩
    have not_target : ¬ g.target x := by
      intro target
      rw [untilProb_target target] at eq
      exact not_one eq.symm
    have sure_successor (z : Fin n) (hz : z ∈ c.successors x) : c.Sure g z :=
      sure.successor not_target hz
    rw [untilProb_allowed not_target hx] at eq
    refine ⟨sure_successor y hy, stochastic.eq_of_mean_eq ?_ ?_ eq y hy⟩
    · exact ne_top_of_le_ne_top ENNReal.one_ne_top (le_one t)
    · intro z hz
      exact least ⟨z, sure_successor z hz⟩
  rw [untilProb_target hu] at kept
  exact not_one kept.2.symm

/-- Conversely, a state that reaches the target with probability one is sure of it. -/
theorem sure_of_untilProb (h : c.untilProb g s = 1) : c.Sure g s := by
  intro t path
  have one : c.untilProb g t = 1 := by
    refine path.tailInduction (motive := fun x => c.untilProb g x = 1) h ?_
    rintro x y - ⟨-, hx⟩ hy one
    obtain ⟨e, he, rfl⟩ := List.mem_map.mp hy
    exact untilProb_successor (fun t => (stochastic.mean_one t).le) hx one he
      (stochastic.toENNReal_ne_zero he)
  by_contra hp
  rw [untilProb_of_not_positive hp] at one
  exact zero_ne_one one

end Stochastic

end Chain

namespace Checker

variable {c : Chain EReal n} {values : Vector EReal n} {v : Fin n → ℝ≥0∞} {s : Fin n}

/-! ## Rounds with exact numbers -/

/-- A sum of exact numbers that are not negative. -/
theorem sumOver_eq_mean (nonneg : ∀ e ∈ c.row s, 0 ≤ e.prob) (eq : ∀ t, values.get t = v t) :
    Scalar.sumOver (c.row s) (fun e => e.prob * values.get e.next) = (c.mean v s : EReal) := by
  have sum (row : List (Edge EReal n)) (h : ∀ e ∈ row, 0 ≤ e.prob) (start : EReal) :
      row.foldl (fun sum e => sum + e.prob * values.get e.next) start =
        start + (((row.map fun e => e.prob.toENNReal * v e.next).sum : ℝ≥0∞) : EReal) := by
    induction row generalizing start with
    | nil => simp
    | cons e rest ih =>
      have term : e.prob * values.get e.next = ((e.prob.toENNReal * v e.next : ℝ≥0∞) : EReal) := by
        rw [eq, EReal.coe_ennreal_mul, EReal.coe_toENNReal (h e List.mem_cons_self)]
      rw [List.foldl_cons, ih fun e he => h e (List.mem_cons_of_mem _ he), List.map_cons,
        List.sum_cons, EReal.coe_ennreal_add, ← add_assoc]
      congr 2
  exact (sum _ nonneg 0).trans (zero_add _)

/-- What is kept of a change and a further one is not above the precision iff neither of them is. -/
theorem joinChange_le_coe_iff {reward : Fin n → EReal} {change : EReal} {x y p : ℝ} (nonneg : 0 ≤ p)
    (old : values.get s = x) (new : update c reward values s = y) :
    joinChange c reward values change s ≤ p ↔ change ≤ p ∧ |y - x| ≤ p := by
  have moved : Scalar.abs (update c reward values s - values.get s) = ((|y - x| : ℝ) : EReal) := by
    rw [new, old, ← EReal.coe_sub]
    show max ((y - x : ℝ) : EReal) (-((y - x : ℝ) : EReal)) = _
    rw [← EReal.coe_neg, abs_eq_max_neg, EReal.coe_strictMono.monotone.map_max]
  unfold joinChange
  split
  · next same =>
    rw [beq_iff_eq, new, old, EReal.coe_eq_coe_iff] at same
    simp [same, nonneg]
  · rw [moved, larger]
    split
    · next below =>
      constructor
      · exact fun h => ⟨below.le.trans h, EReal.coe_le_coe_iff.mp h⟩
      · exact fun h => EReal.coe_le_coe_iff.mpr h.2
    · next above =>
      constructor
      · exact fun h => ⟨h, EReal.coe_le_coe_iff.mp ((not_lt.mp above).trans h)⟩
      · exact And.left

section Settling

variable {reward : Fin n → EReal} {states : StateSet n} {first : Vector EReal n} {p : ℝ} (nonneg : 0 ≤ p)
include nonneg

/-- The change of a round is not above the precision iff no value moves by more. -/
theorem change_le_coe_iff {v w : Fin n → ℝ} (old : ∀ s ∈ states, values.get s = v s)
    (new : ∀ s ∈ states, update c reward values s = w s) :
    change c reward states values ≤ p ↔ ∀ s ∈ states, |w s - v s| ≤ p := by
  have fold (list : List (Fin n)) (inside : ∀ s ∈ list, s ∈ states) (change : EReal) :
      list.foldl (joinChange c reward values) change ≤ p ↔ change ≤ p ∧ ∀ s ∈ list, |w s - v s| ≤ p := by
    induction list generalizing change with
    | nil => simp
    | cons s rest ih =>
      obtain ⟨hs, others⟩ := List.forall_mem_cons.mp inside
      rw [List.foldl_cons, ih others, joinChange_le_coe_iff nonneg (old s hs) (new s hs),
        List.forall_mem_cons, and_assoc]
  rw [change, fold _ fun s => StateSet.mem_toList.mp]
  simp only [StateSet.mem_toList]
  exact and_iff_right (EReal.coe_nonneg.mpr nonneg)

/-- Real values settle in the first round in which none of them moves by more than the precision. -/
theorem settles_of_coe {k : Checker EReal} {v : ℕ → Fin n → ℝ} {rounds : ℕ} (precision : k.precision = p)
    (real : ∀ j, ∀ s ∈ states, (table c reward states first j).get s = v j s)
    (settled : ∀ s ∈ states, |v (rounds + 1) s - v rounds s| ≤ p)
    (unsettled : ∀ j < rounds, ∃ s ∈ states, p < |v (j + 1) s - v j s|) :
    k.Settles c reward states first (rounds + 1) := by
  have change_iff (j : ℕ) : change c reward states (table c reward states first j) ≤ k.precision ↔
      ∀ s ∈ states, |v (j + 1) s - v j s| ≤ p := by
    rw [precision]
    refine change_le_coe_iff nonneg (real j) fun s hs => ?_
    rw [← real (j + 1) s hs, table_succ, get_round_of_mem hs]
  refine ⟨Nat.succ_pos rounds, (change_iff rounds).mpr settled, fun j fewer small => ?_⟩
  obtain ⟨s, hs, large⟩ := unsettled j (Nat.lt_of_succ_lt_succ fewer)
  exact absurd ((change_iff j).mp small s hs) (not_le.mpr large)

end Settling

section Between

variable {f : Formula} (hf : f.kind = .probability)
include hf

/-- Where the iteration has something to do, the goal is still open. -/
theorem open_of_mem_undecided (hs : s ∈ c.undecided f) :
    ¬ (f.goal c.labelling).target s ∧ (f.goal c.labelling).allowed s := by
  have ht := Chain.not_target_of_mem_undecided hs
  have positive := ((Chain.mem_undecided_probability hf).mp hs).1
  exact ⟨ht, (positive.target_or_successor.resolve_left ht).1⟩

variable (stochastic : c.Stochastic)
include stochastic

/-- Where the graph decides, the first value is the exact probability. -/
theorem get_firstValues_of_not_mem (hs : s ∉ c.undecided f) :
    (c.firstValues f).get s = c.untilProb (f.goal c.labelling) s := by
  classical
  rw [Chain.get_firstValues_probability hf]
  by_cases sure : c.Sure (f.goal c.labelling) s
  · rw [if_pos sure, stochastic.untilProb_of_sure sure]
    rfl
  · have never : ¬ c.Positive (f.goal c.labelling) s := fun positive =>
      hs ((Chain.mem_undecided_probability hf).mpr ⟨positive, sure⟩)
    rw [if_neg sure, Chain.untilProb_of_not_positive never]
    rfl

/-- **The values after a number of rounds lie between the probability of reaching the target within as
many steps and the probability of reaching it at all.** -/
theorem table_between (rounds : Nat) : ∃ v : Fin n → ℝ≥0∞, ∀ s,
    (table c (c.collected f) (c.undecided f) (c.firstValues f) rounds).get s = v s ∧
      c.untilWithin (f.goal c.labelling) rounds s ≤ v s ∧
      v s ≤ c.untilProb (f.goal c.labelling) s := by
  classical
  have decided (rounds : Nat) {s : Fin n} (hs : s ∉ c.undecided f) :
      (table c (c.collected f) (c.undecided f) (c.firstValues f) rounds).get s =
        c.untilProb (f.goal c.labelling) s := by
    rw [get_table_of_not_mem hs, get_firstValues_of_not_mem hf stochastic hs]
  induction rounds with
  | zero =>
    refine ⟨fun s => if s ∈ c.undecided f then 0 else c.untilProb (f.goal c.labelling) s,
      fun s => ?_⟩
    by_cases hs : s ∈ c.undecided f
    · obtain ⟨ht, -⟩ := open_of_mem_undecided hf hs
      simp only [if_pos hs]
      refine ⟨Chain.get_firstValues_of_mem hs, ?_, zero_le⟩
      rw [Chain.untilWithin, if_neg ht]
    · simp only [if_neg hs]
      exact ⟨decided 0 hs, Chain.untilWithin_le_untilProb 0, le_rfl⟩
  | succ rounds ih =>
    obtain ⟨v, between⟩ := ih
    refine ⟨fun s => if s ∈ c.undecided f then c.mean v s else c.untilProb (f.goal c.labelling) s,
      fun s => ?_⟩
    by_cases hs : s ∈ c.undecided f
    · obtain ⟨ht, ha⟩ := open_of_mem_undecided hf hs
      simp only [if_pos hs]
      refine ⟨?_, ?_, ?_⟩
      · rw [table_succ, get_round_of_mem hs, update, Chain.collected_probability hf,
          sumOver_eq_mean (fun e he => (stochastic.prob_pos s e he).le) fun t => (between t).1]
        exact zero_add _
      · rw [Chain.untilWithin, Chain.untilStep_allowed ht ha]
        exact Chain.mean_mono fun t => (between t).2.1
      · rw [Chain.untilProb_allowed ht ha]
        exact Chain.mean_mono fun t => (between t).2.2
    · simp only [if_neg hs]
      exact ⟨decided (rounds + 1) hs, Chain.untilWithin_le_untilProb (rounds + 1), le_rfl⟩

end Between

/-- **The values that a checker finds for a probability lie between the probability of reaching the
target within as many steps as it took rounds and the probability of reaching it at all.**  They are
exact where this probability is zero or one. -/
theorem check_between {k : Checker EReal} (stochastic : c.Stochastic) {constraint : Option String}
    {target : String} {b : Bound EReal}
    (h : k.check c ⟨.probability constraint target, b⟩ = .ok (.quantitative values)) :
    ∃ rounds, k.AnswersAfter c ⟨.probability constraint target, b⟩ rounds values ∧
      ∀ s, let g := (Formula.probability constraint target).goal c.labelling
        (c.untilWithin g rounds s : EReal) ≤ values.get s ∧
        values.get s ≤ (c.untilProb g s : EReal) ∧
        (c.untilProb g s = 0 → values.get s = 0) ∧
        (c.untilProb g s = 1 → values.get s = 1) := by
  obtain ⟨known, model⟩ := known_of_check h
  have inner : ¬ Property.Extreme ⟨.probability constraint target, b⟩ := by
    intro extreme
    rw [check_of_extreme k known extreme] at h
    cases h
  obtain ⟨rounds, after, e⟩ := (iterates known model inner).exists_answersAfter h
  cases e
  obtain ⟨v, between⟩ := table_between (f := .probability constraint target) rfl stochastic rounds
  refine ⟨rounds, after, fun s => ?_⟩
  obtain ⟨eq, lower, upper⟩ := between s
  rw [eq]
  refine ⟨?_, ?_, fun zero => ?_, fun one => ?_⟩
  · exact EReal.coe_ennreal_le_coe_ennreal_iff.mpr lower
  · exact EReal.coe_ennreal_le_coe_ennreal_iff.mpr upper
  · rw [zero, nonpos_iff_eq_zero] at upper
    rw [upper]
    rfl
  · -- The state is sure, so its value is one from the beginning.
    have sure := stochastic.sure_of_untilProb one
    have decided : s ∉ c.undecided (.probability constraint target) :=
      fun hs => ((Chain.mem_undecided_probability rfl).mp hs).2 sure
    rw [← eq, get_table_of_not_mem decided, get_firstValues_of_not_mem rfl stochastic decided, one]
    rfl

/-- A fair gamble for one coin a time, until all are lost or won. -/
noncomputable def gamble : Chain EReal 8 where
  initial := 3
  rows := .ofFn fun s =>
    if s = 0 ∨ s = 7 then [⟨s, 1⟩] else [⟨s - 1, Scalar.half⟩, ⟨s + 1, Scalar.half⟩]
  labelling := (Labelling.empty 8).set "won" (.ofList [7])
  reward := none

theorem half_pos : (0 : EReal) < Scalar.half :=
  EReal.coe_pos.mpr (by norm_num)

theorem half_add_half : (Scalar.half : EReal) + Scalar.half = 1 := by
  rw [show (Scalar.half : EReal) = ((1 / 2 : ℝ) : EReal) from rfl, ← EReal.coe_add, add_halves,
    EReal.coe_one]

theorem row_gamble (s : Fin 8) : gamble.row s =
    if s = 0 ∨ s = 7 then [⟨s, 1⟩] else [⟨s - 1, Scalar.half⟩, ⟨s + 1, Scalar.half⟩] :=
  get_ofFn _ s

theorem stochastic_gamble : gamble.Stochastic := by
  constructor
  · intro s e he
    rw [row_gamble] at he
    split at he
    · rw [List.mem_singleton.mp he]
      exact zero_lt_one
    · simp only [List.mem_cons, List.not_mem_nil, or_false] at he
      rcases he with rfl | rfl
      · exact half_pos
      · exact half_pos
  · intro s
    rw [row_gamble]
    split
    · exact List.sum_singleton
    · simp only [List.map_cons, List.map_nil, List.sum_cons, List.sum_nil, add_zero, half_add_half]

/-- The chance to have won after some rounds. -/
def hope : ℕ → Fin 8 → ℚ
  | 0, s => if s = 7 then 1 else 0
  | rounds + 1, s =>
    if s = 0 ∨ s = 7 then hope rounds s else (hope rounds (s - 1) + hope rounds (s + 1)) / 2

theorem goal_gamble :
    goalOf none (StateSet.ofList [7]) = (Formula.probability none "won").goal gamble.labelling :=
  goalOf_none rfl rfl

theorem mem_undecided_gamble {s : Fin 8} :
    s ∈ gamble.undecided (.probability none "won") ↔ s ≠ 0 ∧ s ≠ 7 := by
  have all : ∀ s : Fin 8, (s ∉ (extremes gamble none (StateSet.ofList [7])).never ∧
      s ∉ (extremes gamble none (StateSet.ofList [7])).surely) ↔ s ≠ 0 ∧ s ≠ 7 := by decide +kernel
  rw [Chain.mem_undecided_probability rfl, ← goal_gamble, ← all, mem_never, mem_surely, not_not]

/-- The values of the gamble are the chances to have won. -/
theorem get_valuesAfter_gamble (rounds : ℕ) (s : Fin 8) :
    (gamble.valuesAfter (.probability none "won") rounds).get s = ((hope rounds s : ℝ) : EReal) := by
  induction rounds generalizing s with
  | zero =>
    have sure : ∀ s : Fin 8, s ∈ (extremes gamble none (StateSet.ofList [7])).surely ↔ s = 7 := by
      decide +kernel
    have start : gamble.valuesAfter (.probability none "won") 0 =
        gamble.firstValues (.probability none "won") := rfl
    rw [start, Chain.get_firstValues_probability rfl, ← goal_gamble, ← mem_surely, sure, hope]
    split <;> norm_num
  | succ rounds ih =>
    by_cases last : s = 0 ∨ s = 7
    · have outside : s ∉ gamble.undecided (.probability none "won") := by
        rw [mem_undecided_gamble]
        exact fun inside => last.elim inside.1 inside.2
      have kept : hope (rounds + 1) s = hope rounds s := if_pos last
      rw [kept, ← ih, Chain.valuesAfter_of_not_mem outside, Chain.valuesAfter_of_not_mem outside]
    · have inside := mem_undecided_gamble.mpr (not_or.mp last)
      have next : hope (rounds + 1) s = (hope rounds (s - 1) + hope rounds (s + 1)) / 2 := if_neg last
      have halves : (1 / 2 : ℝ) * hope rounds (s - 1) + 1 / 2 * hope rounds (s + 1) = hope (rounds + 1) s := by
        rw [next]
        push_cast
        ring
      rw [Chain.valuesAfter_succ_of_mem inside, update, row_gamble, if_neg last, ← halves]
      show (0 : EReal) + (0 + Scalar.half * (gamble.valuesAfter _ rounds).get (s - 1) +
        Scalar.half * (gamble.valuesAfter _ rounds).get (s + 1)) = _
      rw [ih, ih, zero_add, zero_add, EReal.coe_add, EReal.coe_mul, EReal.coe_mul]
      rfl

/-- In the fifth round no chance grows by more than a tenth, but in every round before some chance does. -/
theorem settles_gamble : Settles ⟨((1 / 10 : ℝ) : EReal), 5⟩ gamble
    (gamble.collected (.probability none "won")) (gamble.undecided (.probability none "won"))
    (gamble.firstValues (.probability none "won")) 5 := by
  have settled : ∀ s : Fin 8, s ≠ 0 ∧ s ≠ 7 → |hope 5 s - hope 4 s| ≤ 1 / 10 := by decide +kernel
  have unsettled : ∀ j < 4, ∃ s : Fin 8, (s ≠ 0 ∧ s ≠ 7) ∧ 1 / 10 < |hope (j + 1) s - hope j s| := by
    decide +kernel
  refine settles_of_coe (by norm_num) rfl (fun j s _ => get_valuesAfter_gamble j s) (fun s hs => ?_) fun j hj => ?_
  · have small : ((|hope 5 s - hope 4 s| : ℚ) : ℝ) ≤ ((1 / 10 : ℚ) : ℝ) :=
      Rat.cast_le.mpr (settled s (mem_undecided_gamble.mp hs))
    push_cast at small
    exact small
  · obtain ⟨s, hs, large⟩ := unsettled j hj
    have grown : ((1 / 10 : ℚ) : ℝ) < ((|hope (j + 1) s - hope j s| : ℚ) : ℝ) := Rat.cast_lt.mpr large
    push_cast at grown
    exact ⟨s, mem_undecided_gamble.mpr hs, grown⟩

/-- With three coins the gamble is won within five rounds with a probability of one sixteenth, which is not above
the probability of winning it at all. -/
theorem check_between_gamble :
    ∃ values, check ⟨((1 / 10 : ℝ) : EReal), 5⟩ gamble ⟨.probability none "won", ⟨.less, Scalar.half⟩⟩
        = .ok (.quantitative values) ∧ values.get 3 = ((1 / 16 : ℝ) : EReal) ∧
      ∃ rounds, AnswersAfter ⟨((1 / 10 : ℝ) : EReal), 5⟩ gamble
          ⟨.probability none "won", ⟨.less, Scalar.half⟩⟩ rounds values ∧
        (gamble.untilWithin ((Formula.probability none "won").goal gamble.labelling) rounds 3 : EReal)
          ≤ values.get 3 ∧
        values.get 3 ≤
          (gamble.untilProb ((Formula.probability none "won").goal gamble.labelling) 3 : EReal) := by
  have known : (Formula.probability none "won").Known gamble.labelling := ⟨rfl, by rintro _ ⟨⟩⟩
  have inner : ¬ Property.Extreme (⟨.probability none "won", ⟨.less, Scalar.half⟩⟩ : Property EReal) := by
    rintro ⟨-, extreme⟩
    rw [Bool.or_eq_true, beq_iff_eq, beq_iff_eq] at extreme
    rcases extreme with h | h
    · exact half_pos.ne' h
    · exact absurd (EReal.coe_eq_coe_iff.mp h) (by norm_num)
  have answer := (iterates known (by rintro _ ⟨⟩) inner ⟨((1 / 10 : ℝ) : EReal), 5⟩).trans
    (values_eq_ok.mpr ⟨5, le_rfl, settles_gamble, rfl⟩)
  have three : hope 5 3 = 1 / 16 := by decide +kernel
  have value := get_valuesAfter_gamble 5 3
  rw [three] at value
  obtain ⟨rounds, after, between⟩ := check_between stochastic_gamble answer
  exact ⟨_, answer, value.trans (by norm_num), rounds, after, (between 3).1, (between 3).2.1⟩

end Checker

end HoleBlame
