import HoleBlame.Proofs.Answers
import HoleBlame.Proofs.Verdicts
import Mathlib.Data.List.Basic

/-!
# A chain whose states are all expanded

When all states of a member are expanded, nothing of the member is hidden any more.  The shortened chain
still has two states more, and its own labels, rewards and property, but no state of the member moves
to a sink.  So the graph decides the same states in both chains (`Shortcut.Revealed.positive_lift`,
`Shortcut.Revealed.sure_lift`), the same states are iterated, and by induction on the rounds each of
them has the same value in every round (`Shortcut.Revealed.valuesAfter_lift`).  Since the values also
settle in the same round, a checker gives the same answers for both chains, rounded in the same
way, or gives up on both (`Shortcut.check_expanded`).
-/

namespace HoleBlame

variable {α : Type} {n : Nat}

/-- A sum depends on its terms alone. -/
theorem Scalar.sumOver_congr [Scalar α] {β : Type} {xs : List β} {f g : β → α}
    (same : ∀ x ∈ xs, f x = g x) : Scalar.sumOver xs f = Scalar.sumOver xs g :=
  List.foldl_ext _ _ _ fun sum x hx => by rw [same x hx]

namespace Shortcut

/-- A set of states of a shortened chain that contains no sink lists the states that it contains in the
same order as the member does. -/
theorem toList_eq_map_lift {S : StateSet (n + 2)} {T : StateSet n} (same : ∀ s, lift s ∈ S ↔ s ∈ T)
    (sinkFalse_not_mem : sinkFalse n ∉ S) (sinkTrue_not_mem : sinkTrue n ∉ S) :
    S.toList = T.toList.map lift := by
  have states : List.finRange (n + 2) =
      (List.finRange n).map lift ++ [sinkFalse n, sinkTrue n] := by
    rw [List.finRange_succ_last, List.finRange_succ_last]
    simp only [List.map_append, List.map_map, List.map_cons, List.map_nil, List.append_assoc]
    rfl
  rw [StateSet.toList, StateSet.toList, states, List.filter_append, List.filter_map,
    List.filter_cons_of_neg (by simpa using sinkFalse_not_mem),
    List.filter_cons_of_neg (by simpa using sinkTrue_not_mem), List.filter_nil, List.append_nil]
  congr 2
  funext s
  simp [same]

variable [Scalar α] {m : Member α n} {priors : Priors α} {p : Property α} {target : StateSet n}
  {x : Shortcut α n} {s : Fin n}

/-- The values of a shortened chain after a number of rounds. -/
noncomputable abbrev valuesAfter (x : Shortcut α n) (rounds : Nat) : Vector α (n + 2) :=
  x.chain.valuesAfter x.property.formula rounds

/-! ## The sinks -/

namespace Shortens

variable (h : x.Shortens m priors p target)
include h

theorem sinkFalse_not_mem_undecided : sinkFalse n ∉ x.chain.undecided x.property.formula := by
  intro hs
  cases hk : p.formula.kind with
  | probability =>
    exact h.not_positive_sinkFalse ((Chain.mem_undecided_probability (h.kind.trans hk)).mp hs).1
  | reward =>
    exact h.not_positive_sinkFalse ((Chain.mem_undecided_reward (h.kind.trans hk)).mp hs).1.positive

theorem sinkTrue_not_mem_undecided : sinkTrue n ∉ x.chain.undecided x.property.formula := by
  intro hs
  cases hk : p.formula.kind with
  | probability =>
    exact ((Chain.mem_undecided_probability (h.kind.trans hk)).mp hs).2 (.of_target h.target_sinkTrue)
  | reward => exact ((Chain.mem_undecided_reward (h.kind.trans hk)).mp hs).2 h.target_sinkTrue

theorem isSome_rewardModel? (name : String) (hn : x.property.formula.model? = some name) :
    (x.chain.rewardModel? name).isSome = true := by
  obtain ⟨r, hr, rfl, -⟩ := h.exists_reward (h.model?.symm.trans hn)
  simp [Chain.rewardModel?, hr, Option.filter]

theorem collected_lift (hs : s ∈ x.expanded) : x.chain.collected x.property.formula (lift s) =
    m.chain.collected p.formula s := by
  cases hm : p.formula.model? with
  | none =>
    have hk := Formula.kind_of_model?_eq_none hm
    rw [Chain.collected_probability hk, Chain.collected_probability (h.kind.trans hk)]
  | some model =>
    rw [Chain.collected_reward hm, Chain.collected_reward (h.model?.trans hm), h.rewardAt_lift hm,
      if_pos hs]

/-- An expanded state takes its value from the states that follow it in the member. -/
theorem update_lift (hs : s ∈ x.expanded) (values : Vector α (n + 2)) :
    Checker.update x.chain (x.chain.collected x.property.formula) values (lift s) =
      m.chain.collected p.formula s +
        Scalar.sumOver (m.chain.row s) fun e => e.prob * values.get (lift e.next) := by
  rw [Checker.update, h.collected_lift hs, h.row_lift, if_pos hs, exactRow, Scalar.sumOver,
    List.foldl_map]
  rfl

theorem extreme_iff : x.property.Extreme ↔ p.Extreme := by
  have bound_eq : x.property.bound = p.bound := by rw [h.property]; rfl
  rw [Property.Extreme, Property.Extreme, h.kind, bound_eq]

end Shortens

/-- A region of states in which nothing of the member is hidden any more: its states are expanded, unless
they are targets, and their transitions do not leave it. -/
structure Revealed (x : Shortcut α n) (m : Member α n) (priors : Priors α) (p : Property α)
    (target : StateSet n) (region : Fin n → Prop) : Prop where
  shortens : x.Shortens m priors p target
  constraint : p.formula.constraint? ≠ some targetLabel
  targets : ∀ s, priors.isTarget (m.quotientState.get s) = true →
    m.chain.labelling.has s p.formula.target = true
  expanded : ∀ s, region s → ¬ (p.formula.goal m.chain.labelling).target s → s ∈ x.expanded
  successor : ∀ s, region s → ¬ (p.formula.goal m.chain.labelling).target s →
    ∀ t ∈ m.chain.successors s, region t

namespace Revealed

variable {region : Fin n → Prop} (h : x.Revealed m priors p target region)
include h

/-! ## The graph -/

/-- Every state of the region looks like itself in the member, until the target is reached. -/
theorem likeness : Likeness x.chain m.chain x.goal (p.formula.goal m.chain.labelling)
    (fun y => ∃ s, (region s ∧ ¬ (p.formula.goal m.chain.labelling).target s) ∧ lift s = y)
    (fun y s => ∃ t, lift t = y ∧ region t ∧ t = s) := by
  refine h.shortens.likeness h.constraint (h.targets _) ?_ fun hs => h.expanded _ hs.1 hs.2
  refine ⟨?_, ?_, ?_, ?_⟩
  · rintro s _ ⟨-, rfl⟩
    rfl
  · rintro s _ ⟨-, rfl⟩
    rfl
  · rintro s _ ⟨hs, rfl⟩ ⟨-, ht⟩ t hst
    exact ⟨t, hst, h.successor s hs ht t hst, rfl⟩
  · rintro s _ ⟨hs, rfl⟩ ⟨-, ht⟩ t hst
    exact ⟨t, hst, h.successor s hs ht t hst, rfl⟩

variable {s : Fin n} (hs : region s)
include hs

theorem target_lift : x.goal.target (lift s) ↔ (p.formula.goal m.chain.labelling).target s :=
  h.likeness.target ⟨s, rfl, hs, rfl⟩

omit hs in
theorem known_of_not_target {y : Fin (n + 2)} (hy : ∃ t, lift t = y ∧ region t ∧ t = s)
    (ht : ¬ x.goal.target y) :
    ∃ s, (region s ∧ ¬ (p.formula.goal m.chain.labelling).target s) ∧ lift s = y := by
  obtain ⟨t, rfl, hr, rfl⟩ := hy
  exact ⟨t, ⟨hr, fun h' => ht ((h.target_lift hr).mpr h')⟩, rfl⟩

theorem positive_lift : x.chain.Positive x.goal (lift s) ↔
    m.chain.Positive (p.formula.goal m.chain.labelling) s :=
  ⟨h.likeness.positive_of_low (fun hy hk ht => absurd (h.known_of_not_target hy ht) hk) ⟨s, rfl, hs, rfl⟩,
    h.likeness.positive_of_high (fun hy hk ht => absurd (h.known_of_not_target hy ht) hk)
      ⟨s, rfl, hs, rfl⟩⟩

theorem sure_lift : x.chain.Sure x.goal (lift s) ↔
    m.chain.Sure (p.formula.goal m.chain.labelling) s :=
  ⟨h.likeness.sure_of_low (fun hy hk ht => absurd (h.known_of_not_target hy ht) hk) ⟨s, rfl, hs, rfl⟩,
    h.likeness.sure_of_high (fun hy hk ht => absurd (h.known_of_not_target hy ht) hk)
      ⟨s, rfl, hs, rfl⟩⟩

theorem chance_lift : (x.chain.chance x.goal (lift s) : α) =
    m.chain.chance (p.formula.goal m.chain.labelling) s := by
  classical
  exact if_congr (h.positive_lift hs) (if_congr (h.sure_lift hs) rfl rfl) rfl

/-! ## The values -/

theorem mem_undecided_lift : lift s ∈ x.chain.undecided x.property.formula ↔
    s ∈ m.chain.undecided p.formula := by
  cases hk : p.formula.kind with
  | probability =>
    rw [Chain.mem_undecided_probability hk, Chain.mem_undecided_probability (h.shortens.kind.trans hk)]
    exact and_congr (h.positive_lift hs) (not_congr (h.sure_lift hs))
  | reward =>
    rw [Chain.mem_undecided_reward hk, Chain.mem_undecided_reward (h.shortens.kind.trans hk)]
    exact and_congr (h.sure_lift hs) (not_congr (h.target_lift hs))

theorem get_firstValues_lift : (x.chain.firstValues x.property.formula).get (lift s) =
    (m.chain.firstValues p.formula).get s := by
  classical
  cases hk : p.formula.kind with
  | probability =>
    rw [Chain.get_firstValues_probability hk,
      Chain.get_firstValues_probability (h.shortens.kind.trans hk)]
    exact if_congr (h.sure_lift hs) rfl rfl
  | reward =>
    rw [Chain.get_firstValues_reward hk, Chain.get_firstValues_reward (h.shortens.kind.trans hk)]
    exact if_congr (h.sure_lift hs) rfl rfl

/-- A state of the region that is no target takes the same value from the same values. -/
theorem update_lift (ht : ¬ (p.formula.goal m.chain.labelling).target s) {values : Vector α (n + 2)}
    {values' : Vector α n} (same : ∀ t, region t → values.get (lift t) = values'.get t) :
    Checker.update x.chain (x.chain.collected x.property.formula) values (lift s) =
      Checker.update m.chain (m.chain.collected p.formula) values' s := by
  rw [h.shortens.update_lift (h.expanded s hs ht), Checker.update]
  congr 1
  refine Scalar.sumOver_congr fun e he => ?_
  rw [same e.next (h.successor s hs ht e.next (List.mem_map_of_mem he))]

omit hs in
/-- **In every round the states of the region have the values that they have in the member.** -/
theorem valuesAfter_lift (rounds : Nat) {s : Fin n} (hs : region s) :
    (x.valuesAfter rounds).get (lift s) =
      (m.chain.valuesAfter p.formula rounds).get s := by
  induction rounds generalizing s with
  | zero => exact h.get_firstValues_lift hs
  | succ rounds ih =>
    by_cases undecided : s ∈ m.chain.undecided p.formula
    · rw [Chain.valuesAfter_succ_of_mem undecided,
        Chain.valuesAfter_succ_of_mem ((h.mem_undecided_lift hs).mpr undecided)]
      exact h.update_lift hs (Chain.not_target_of_mem_undecided undecided) fun _ => ih
    · rw [Chain.valuesAfter_of_not_mem undecided,
        Chain.valuesAfter_of_not_mem ((h.mem_undecided_lift hs).not.mpr undecided)]
      exact h.get_firstValues_lift hs

end Revealed

/-! ## Nothing is hidden -/

namespace Revealed

variable (h : x.Revealed m priors p target fun _ => True)
include h

theorem toList_undecided : (x.chain.undecided x.property.formula).toList =
    (m.chain.undecided p.formula).toList.map lift :=
  toList_eq_map_lift (fun _ => h.mem_undecided_lift trivial) h.shortens.sinkFalse_not_mem_undecided
    h.shortens.sinkTrue_not_mem_undecided

/-- The same values change alike in a round. -/
theorem change_lift {values : Vector α (n + 2)} {values' : Vector α n}
    (same : ∀ s, values.get (lift s) = values'.get s) :
    Checker.change x.chain (x.chain.collected x.property.formula)
        (x.chain.undecided x.property.formula) values =
      Checker.change m.chain (m.chain.collected p.formula) (m.chain.undecided p.formula) values' := by
  rw [Checker.change, Checker.change, h.toList_undecided, List.foldl_map]
  refine List.foldl_ext _ _ _ fun change s hs => ?_
  have ht := Chain.not_target_of_mem_undecided (StateSet.mem_toList.mp hs)
  simp only [Checker.joinChange, h.update_lift trivial ht fun t _ => same t, same s]

/-- **The values settle in the same round.** -/
theorem settles_iff {k : Checker α} {rounds : Nat} :
    k.SettlesAfter x.chain x.property.formula rounds ↔ k.SettlesAfter m.chain p.formula rounds := by
  refine Checker.settles_congr fun j => ?_
  rw [h.change_lift fun _ => h.valuesAfter_lift j trivial]

end Revealed

end Shortcut

/-- An answer for a shortened chain says the same of the states of the member as an answer for the
member does. -/
def CheckResult.Extends (r : CheckResult α (n + 2)) (r' : CheckResult α n) : Prop :=
  match r, r' with
  | .qualitative satisfied, .qualitative satisfied' =>
    ∀ s, Shortcut.lift s ∈ satisfied ↔ s ∈ satisfied'
  | .quantitative values, .quantitative values' =>
    ∀ s, values.get (Shortcut.lift s) = values'.get s
  | _, _ => False

namespace Shortcut

variable [Scalar α] {m : Member α n} {priors : Priors α} {p : Property α} {target : StateSet n}
  {x : Shortcut α n}

/-- How a checker may answer for a shortened chain and for the member: it gives the same answers for
both, or it gives up on both. -/
def SameAnswers (k : Checker α) (x : Shortcut α n) (m : Member α n) (p : Property α) : Prop :=
  (∃ r r', k.check x.chain x.property = .ok r ∧ k.check m.chain p = .ok r' ∧ r.Extends r') ∨
    (k.check x.chain x.property = .error (.noConvergence k.maxIterations) ∧
      k.check m.chain p = .error (.noConvergence k.maxIterations))

theorem Revealed.sameAnswers (h : x.Revealed m priors p target fun _ => True)
    (known : p.formula.Known m.chain.labelling)
    (model : ∀ name, p.formula.model? = some name → (m.chain.rewardModel? name).isSome = true)
    (k : Checker α) : SameAnswers k x m p := by
  have known_x := h.shortens.known known
  by_cases extreme : p.Extreme
  · left
    refine ⟨_, _, Checker.check_of_extreme k known_x (h.shortens.extreme_iff.mpr extreme),
      Checker.check_of_extreme k known extreme, fun s => ?_⟩
    have bound_eq : x.property.bound = p.bound := by rw [h.shortens.property]; rfl
    rw [StateSet.mem_ofFn, StateSet.mem_ofFn, bound_eq, h.chance_lift trivial]
  · have iterates_x := Checker.iterates known_x h.shortens.isSome_rewardModel?
      (h.shortens.extreme_iff.not.mpr extreme)
    have iterates := Checker.iterates known model extreme
    by_cases settles : ∃ rounds ≤ k.maxIterations, k.SettlesAfter m.chain p.formula rounds
    · obtain ⟨rounds, hle, settles⟩ := settles
      left
      refine ⟨.quantitative _, .quantitative _, (iterates_x k).trans ?_, (iterates k).trans ?_,
        fun _ => h.valuesAfter_lift rounds trivial⟩
      · exact Checker.values_eq_ok.mpr ⟨rounds, hle, h.settles_iff.mpr settles, rfl⟩
      · exact Checker.values_eq_ok.mpr ⟨rounds, hle, settles, rfl⟩
    · right
      have never (rounds : Nat) (hle : rounds ≤ k.maxIterations)
          (hs : k.SettlesAfter m.chain p.formula rounds) : False :=
        settles ⟨rounds, hle, hs⟩
      refine ⟨(iterates_x k).trans ?_, (iterates k).trans ?_⟩
      · exact Checker.values_eq_error.mpr
          ⟨fun rounds hle hs => never rounds hle (h.settles_iff.mp hs), rfl⟩
      · exact Checker.values_eq_error.mpr ⟨never, rfl⟩

theorem foldl_expand (calls : List (List (Fin n))) :
    calls.foldl Shortcut.expand x = x.expand calls.flatten := by
  induction calls generalizing x with
  | nil => rfl
  | cons states rest ih => rw [List.foldl_cons, ih, List.flatten_cons, expand_append]

/-- **A shortened chain with all states expanded is the chain.**  However the states are expanded, a
checker answers its property there as it answers the original property for the member, with the
same numbers, or it gives up on both. -/
theorem check_expanded (hx : ofMember m priors p = .ok x)
    (hc : p.formula.constraint? ≠ some targetLabel)
    (targets : ∀ s, priors.isTarget (m.quotientState.get s) = true →
      m.chain.labelling.has s p.formula.target = true)
    {calls : List (List (Fin n))} (covered : ∀ s, ∃ states ∈ calls, s ∈ states) (k : Checker α) :
    SameAnswers k (calls.foldl Shortcut.expand x) m p := by
  obtain ⟨known, model⟩ := known_of_ofMember hx
  obtain ⟨target, shortens, -⟩ := shortens_of_ofMember hx
  rw [foldl_expand]
  have revealed : (x.expand calls.flatten).Revealed m priors p target fun _ => True :=
    { shortens := shortens.expand _
      constraint := hc
      targets := targets
      expanded := fun s _ _ => mem_expanded_expand.mpr (.inl (List.mem_flatten.mpr (covered s)))
      successor := fun _ _ _ _ _ => trivial }
  exact revealed.sameAnswers known model k

/-- What is known in advance of the crossroads: a bound that is too low, and the goal. -/
def roadSigns : Priors Float :=
  ⟨#[⟨none, false⟩, ⟨some 0.25, false⟩, ⟨none, false⟩, ⟨none, false⟩, ⟨none, false⟩, ⟨none, false⟩,
    ⟨none, true⟩]⟩

/-- The crossroads, expanded in two steps and in no particular order. -/
theorem check_expanded_crossroads :
    ∃ x, ofMember (.identity Checker.crossroads) roadSigns
        ⟨.probability (some "safe") "goal", ⟨.greaterEqual, 0.75⟩⟩ = .ok x ∧
      SameAnswers .standard ([[2, 5, 0], [6, 3, 1, 0, 4]].foldl Shortcut.expand x)
        (.identity Checker.crossroads)
        ⟨.probability (some "safe") "goal", ⟨.greaterEqual, 0.75⟩⟩ := by
  have known : (Formula.probability (some "safe") "goal").Known Checker.crossroads.labelling := by
    refine ⟨by decide +kernel, ?_⟩
    rintro name ⟨⟩
    decide +kernel
  have accepted (q : Nat) (bound : Float) (hb : roadSigns.bound? q = some bound) :
      BoundKind.accepts .probability bound = true := by
    match q with
    | 0 | 2 | 3 | 4 | 5 | 6 | q + 7 => cases hb
    | 1 =>
      cases hb
      decide +kernel
  obtain ⟨x, hx⟩ : ∃ x, ofMember (.identity Checker.crossroads) roadSigns
      ⟨.probability (some "safe") "goal", ⟨.greaterEqual, 0.75⟩⟩ = .ok x :=
    exists_ofMember known (by rintro _ ⟨⟩) accepted
  exact ⟨x, hx, check_expanded hx (by decide) (by decide +kernel) (by decide +kernel) .standard⟩

end Shortcut

end HoleBlame
