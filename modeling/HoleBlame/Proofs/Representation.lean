import Mathlib.Algebra.Order.BigOperators.Group.Finset
import HoleBlame.Proofs.Detours
import HoleBlame.Proofs.Renumbering
import HoleBlame.Proofs.Restoring

/-!
# A shortened chain is what has been expanded in it

A shortened chain is changed in place, and it counts along: how many states are expanded, and how many
transitions there are.  Its counters are right at the beginning (`Shortcut.counted_of_ofMember`), and
expanding a state preserves this (`Shortcut.Counted.expandState`).  In particular, a row that is replaced
never has more transitions than have been counted.

With right counters, the set of expanded states determines everything else
(`Shortcut.Shortens.eq_of_expanded`).  So neither the order in which states are expanded matters nor how often
they are named, and what the chain looks like can be said from the states alone
(`Shortcut.represents_of_ofMember`).
-/

namespace HoleBlame

variable {α : Type} {n : ℕ}

namespace StateSet

variable {S : StateSet n} {s : Fin n}

theorem nodup_toList : S.toList.Nodup :=
  (List.nodup_finRange n).filter _

theorem length_toList_insert (h : s ∉ S) : (S.insert s).toList.length = S.toList.length + 1 := by
  have fresh : (s :: S.toList).Nodup := List.nodup_cons.mpr ⟨by simpa using h, nodup_toList⟩
  exact ((List.perm_ext_iff_of_nodup nodup_toList fresh).mpr fun t => by simp).length_eq

end StateSet

namespace Chain

theorem length_row_le_numTransitions (c : Chain α n) (s : Fin n) :
    (c.row s).length ≤ c.numTransitions := by
  rw [numTransitions_eq_sum]
  exact Finset.single_le_sum (fun t _ => Nat.zero_le (c.row t).length) (Finset.mem_univ s)

/-- Chains with the same parts are equal. -/
theorem ext_row {c c' : Chain α n} (initial : c.initial = c'.initial) (rows : ∀ s, c.row s = c'.row s)
    (labelling : c.labelling = c'.labelling) (reward : c.reward = c'.reward) : c = c' := by
  have rows : c.rows = c'.rows := ext_get rows
  obtain ⟨_, _, _, _⟩ := c
  simp only at initial rows labelling reward
  rw [initial, rows, labelling, reward]

end Chain

namespace Shortcut

variable [Scalar α] {m : Member α n} {priors : Priors α} {p : Property α} {target : StateSet n}
  {x y : Shortcut α n} {s : Fin n}

/-! ## Counters -/

/-- The counters of a shortened chain say how many states are expanded and how many transitions there
are. -/
structure Counted (x : Shortcut α n) : Prop where
  expanded : x.numExpanded = x.expanded.toList.length
  transitions : x.numTransitions = x.chain.numTransitions

theorem counted_of_ofMember (h : ofMember m priors p = .ok x) : x.Counted := by
  obtain ⟨known, model⟩ := known_of_ofMember h
  obtain ⟨target, ht⟩ := Option.isSome_iff_exists.mp known.target
  rw [ofMember_eq_unexpanded ht known model] at h
  unfold unexpanded at h
  split at h
  · cases h
  · cases h
    refine ⟨?_, rfl⟩
    rw [show (StateSet.empty n).toList = [] from List.filter_eq_nil_iff.mpr fun s _ => by simp]
    rfl

/-- A row that is replaced changes the number of transitions by the difference of its lengths. -/
theorem numTransitions_exactAt (c : Chain α n) (s : Fin n) (shortened : Chain α (n + 2)) :
    (exactAt c s shortened).numTransitions + (shortened.row (lift s)).length =
      shortened.numTransitions + (exactRow c s).length := by
  have others : ∑ t ∈ Finset.univ.erase (lift s), ((exactAt c s shortened).row t).length =
      ∑ t ∈ Finset.univ.erase (lift s), (shortened.row t).length :=
    Finset.sum_congr rfl fun t ht => by rw [row_exactAt, if_neg (Finset.ne_of_mem_erase ht)]
  rw [Chain.numTransitions_eq_sum, Chain.numTransitions_eq_sum,
    ← Finset.add_sum_erase _ _ (Finset.mem_univ (lift s)),
    ← Finset.add_sum_erase _ (fun t => (shortened.row t).length) (Finset.mem_univ (lift s)), others,
    row_exactAt, if_pos rfl]
  omega

namespace Counted

theorem expandState (counted : x.Counted) (s : Fin n) : (x.expandState s).Counted := by
  by_cases hs : s ∈ x.expanded
  · rw [expandState_of_mem hs]
    exact counted
  · rw [expandState_of_not_mem hs]
    constructor
    case expanded =>
      show x.numExpanded + 1 = (x.expanded.insert s).toList.length
      rw [StateSet.length_toList_insert hs, counted.expanded]
    case transitions =>
      -- No more transitions are taken away than have been counted.
      have le := x.chain.length_row_le_numTransitions (lift s)
      have replaced := numTransitions_exactAt x.source s x.chain
      show x.numTransitions - _ + _ = (exactAt x.source s x.chain).numTransitions
      rw [counted.transitions]
      omega

/-- **Expanding states keeps the counters right.** -/
theorem expand (counted : x.Counted) (states : List (Fin n)) : (x.expand states).Counted := by
  induction states generalizing x with
  | nil => exact counted
  | cons s rest ih => exact ih (counted.expandState s)

end Counted

/-! ## Equal sets -/

/-- **Which states are expanded determines everything else.** -/
theorem Shortens.eq_of_expanded (hx : x.Shortens m priors p target) (hy : y.Shortens m priors p target)
    (counted : x.Counted) (counted' : y.Counted) (same : ∀ s, s ∈ x.expanded ↔ s ∈ y.expanded) :
    x = y := by
  have expanded : x.expanded = y.expanded := StateSet.ext same
  have reward : x.chain.reward = y.chain.reward := by
    have names := hx.model.trans hy.model.symm
    cases first : x.chain.reward with
    | none => rw [first, Option.map_none, eq_comm, Option.map_eq_none_iff] at names; rw [names]
    | some r =>
      rw [first, Option.map_some, eq_comm, Option.map_eq_some_iff] at names
      obtain ⟨r', second, name⟩ := names
      rw [second]
      have values : r.rewards = r'.rewards := by
        refine ext_get fun t => ?_
        rcases lift_or_sink t with ⟨s, rfl⟩ | rfl | rfl
        · rw [hx.reward_lift r first, hy.reward_lift r' second, expanded, name]
        · rw [hx.reward_sinkFalse r first, hy.reward_sinkFalse r' second]
        · rw [hx.reward_sinkTrue r first, hy.reward_sinkTrue r' second]
      obtain ⟨_, _⟩ := r
      simp only at name values
      rw [← name, values]
  have chain : x.chain = y.chain := by
    refine Chain.ext_row (hx.initial.trans hy.initial.symm) (fun t => ?_)
      (hx.labelling.trans hy.labelling.symm) reward
    rcases lift_or_sink t with ⟨s, rfl⟩ | rfl | rfl
    · rw [hx.row_lift, hy.row_lift, expanded]
    · rw [hx.row_sinkFalse, hy.row_sinkFalse]
    · rw [hx.row_sinkTrue, hy.row_sinkTrue]
  have numExpanded := counted.expanded.trans (expanded ▸ counted'.expanded.symm)
  have numTransitions := counted.transitions.trans (chain ▸ counted'.transitions.symm)
  have source := hx.source.trans hy.source.symm
  have property := hx.property.trans hy.property.symm
  obtain ⟨_, _, _, _, _, _⟩ := x
  simp only at source property chain expanded numExpanded numTransitions
  rw [source, property, chain, expanded, numExpanded, numTransitions]

end Shortcut

/-! ## What a shortened chain is -/

namespace Shortcut

variable {m : Member Float n} {priors : Priors Float} {p : Property Float} {x y : Shortcut Float n}
  {states : List (Fin n)}

/-- What a shortened chain `x` has become after some states have been expanded in it. -/
structure Represents (y x : Shortcut Float n) (m : Member Float n) (p : Property Float)
    (states : List (Fin n)) : Prop where
  /-- However the states are arranged, the result is the same. -/
  order : ∀ calls : List (List (Fin n)),
    (∀ s, s ∈ calls.flatten ↔ s ∈ states) → calls.foldl expand x = y
  expanded : ∀ s, s ∈ y.expanded ↔ s ∈ states
  numExpanded : y.numExpanded = y.expanded.toList.length
  row_of_mem : ∀ s ∈ states, y.chain.row (lift s) = exactRow m.chain s
  row_of_not_mem : ∀ s ∉ states, y.chain.row (lift s) = x.chain.row (lift s)
  row_sinkFalse : y.chain.row (sinkFalse n) = [⟨sinkFalse n, 1⟩]
  row_sinkTrue : y.chain.row (sinkTrue n) = [⟨sinkTrue n, 1⟩]
  /-- There are rewards only if the property is about rewards, and these exist in the member. -/
  model : y.chain.reward.map (·.name) = p.formula.model? ∧
    ∀ model, p.formula.model? = some model → (m.chain.rewardModel? model).isSome = true
  reward_of_mem : ∀ model, p.formula.model? = some model → ∀ s ∈ states,
    y.chain.rewardAt model (lift s) = m.chain.rewardAt model s
  reward_of_not_mem : ∀ model, p.formula.model? = some model → ∀ s ∉ states,
    y.chain.rewardAt model (lift s) = x.chain.rewardAt model (lift s)
  reward_sinkFalse : ∀ model, p.formula.model? = some model → y.chain.rewardAt model (sinkFalse n) = 0
  reward_sinkTrue : ∀ model, p.formula.model? = some model → y.chain.rewardAt model (sinkTrue n) = 0
  initial : y.chain.initial = lift m.chain.initial
  labelling : y.chain.labelling = x.chain.labelling
  property : y.property = p.withTarget targetLabel
  numTransitions : y.numTransitions = ∑ t, (y.chain.row t).length
  /-- A row that is replaced has been counted. -/
  counted : ∀ t, (y.chain.row t).length ≤ y.numTransitions
  /-- Every state has a transition, and all weights are positive. -/
  live : y.chain.Live
  successors : ∀ t, ∀ e ∈ y.chain.row t,
    (∃ s, e.next = lift s) ∨ e.next = sinkFalse n ∨ e.next = sinkTrue n

/-- **A shortened chain is what has been expanded in it.**  This holds after every sequence of calls that
each expand a list of states, and so it holds between them. -/
theorem represents_of_ofMember {d : Draft} {initial : ℕ} (built : d.finish initial = .ok ⟨n, m.chain⟩)
    (hx : ofMember m priors p = .ok x) (calls : List (List (Fin n))) :
    (calls.foldl expand x).Represents x m p calls.flatten := by
  obtain ⟨known, exact⟩ := known_of_ofMember hx
  obtain ⟨target, first, none⟩ := shortens_of_ofMember hx
  have shortens (states : List (Fin n)) := first.expand states
  have counted (states : List (Fin n)) := (counted_of_ofMember hx).expand states
  have shown (states : List (Fin n)) := shows_expand hx fun s => Iff.rfl (a := s ∈ states)
  rw [foldl_expand]
  constructor
  case order =>
    intro others same
    rw [foldl_expand]
    refine (shortens _).eq_of_expanded (shortens _) (counted _) (counted _) fun s => ?_
    rw [(shown _).expanded, (shown _).expanded, same]
  case expanded => exact (shown _).expanded
  case numExpanded => exact (counted _).expanded
  case row_of_mem => exact (shown _).row_of_mem
  case row_of_not_mem => exact (shown _).row_of_not_mem
  case row_sinkFalse => exact (shown _).row_sinkFalse
  case row_sinkTrue => exact (shown _).row_sinkTrue
  case model => exact ⟨(shown _).model, exact⟩
  case reward_of_mem => exact (shown _).reward_of_mem
  case reward_of_not_mem => exact (shown _).reward_of_not_mem
  case reward_sinkFalse => exact (shown _).reward_sinkFalse
  case reward_sinkTrue => exact (shown _).reward_sinkTrue
  case initial => exact (shown _).initial
  case labelling => exact (shown _).labelling
  case property => exact (shown _).property
  case numTransitions => exact (counted _).transitions.trans Chain.numTransitions_eq_sum
  case counted =>
    intro t
    rw [(counted _).transitions]
    exact Chain.length_row_le_numTransitions _ t
  case live => exact (shortens _).live (refused?_of_ofMember hx) (Draft.live_of_finish built)
  case successors => exact fun t e _ => lift_or_sink e.next

/-! ### A road -/

/-- What is known in advance of a road: how much its second stretch costs at least. -/
def tollSign : Priors Float :=
  ⟨#[⟨none, false⟩, ⟨some 2, false⟩]⟩

/-- A road, expanded from its end, with states named twice.  Its second stretch keeps the bound. -/
theorem represents_road :
    (Explanation.road 5).finish 0 = .ok ⟨3, Explanation.roadChain 5⟩ ∧
      ∃ x, ofMember (.identity (Explanation.roadChain 5)) tollSign
          ⟨.reward "cost" "target", ⟨.lessEqual, 4⟩⟩ = .ok x ∧
        ([[2], [0, 2, 0]].foldl expand x).Represents x (.identity (Explanation.roadChain 5))
          ⟨.reward "cost" "target", ⟨.lessEqual, 4⟩⟩ [2, 0, 2, 0] ∧
        ([[2], [0, 2, 0]].foldl expand x).numExpanded = 2 ∧
        ([[2], [0, 2, 0]].foldl expand x).chain.rewardAt "cost" 1 = 2 := by
  have built : (Explanation.road 5).finish 0 = .ok ⟨3, Explanation.roadChain 5⟩ :=
    eq_ok_of_toOption (by decide +kernel)
  have computed : (ofMember (.identity (Explanation.roadChain 5)) tollSign
      ⟨.reward "cost" "target", ⟨.lessEqual, 4⟩⟩).toOption.map (fun x =>
        (([[2], [0, 2, 0]].foldl expand x).numExpanded,
          ([[2], [0, 2, 0]].foldl expand x).chain.rewardAt "cost" 1)) = some (2, 2) := by
    decide +kernel
  cases hx : ofMember (.identity (Explanation.roadChain 5)) tollSign
      ⟨.reward "cost" "target", ⟨.lessEqual, 4⟩⟩ with
  | error => rw [hx] at computed; cases computed
  | ok x =>
    rw [hx] at computed
    obtain ⟨count, reward⟩ := Prod.mk.inj (Option.some.inj computed)
    exact ⟨built, x, rfl, represents_of_ofMember (m := .identity (Explanation.roadChain 5)) built hx
      [[2], [0, 2, 0]], count, reward⟩

end Shortcut

end HoleBlame
