import HoleBlame.Proofs.Likeness
import HoleBlame.Proofs.Shortening

/-!
# What a shortened chain says of true chains

Suppose that no bound is known in advance.  Then the states of a shortened chain that are not expanded err
in favour of the property: they never reach the target if the property bounds from above
(`Shortcut.Shortens.low`), and they surely reach it if it bounds from below
(`Shortcut.Shortens.high`).  So a shortened chain that violates a property whose threshold is zero or one
goes on violating it when more states are expanded (`Shortcut.Shortens.violates_of_subset`).  If nothing else
is known either, it speaks for every chain that looks like the member where the member is expanded
(`Shortcut.Shortens.violates`), and if all states that matter are expanded it speaks in favour of the
property as well (`Shortcut.Shortens.satisfies`).
-/

namespace HoleBlame

variable {α : Type} {n n' : Nat}

/-! ## Nothing known in advance -/

namespace Priors

@[simp] theorem bound?_unknown (q : Nat) : (unknown : Priors α).bound? q = none := by
  simp [unknown, ofSize, bound?]

@[simp] theorem isTarget_unknown (q : Nat) : (unknown : Priors α).isTarget q = false := by
  simp [unknown, ofSize, isTarget]

end Priors

namespace Shortcut

variable [Scalar α] {m : Member α n} {priors : Priors α} {p : Property α} {target : StateSet n}
  {x : Shortcut α n} {s : Fin n}

theorem get_bounds_of_unbounded (unbounded : ∀ q, priors.bound? q = none) (kind : BoundKind)
    (safety : Bool) : (bounds m priors kind safety).get s = kind.trivial safety := by
  simp [bounds, get_eq_getElem, unbounded]

theorem get_bounds_unknown (kind : BoundKind) (safety : Bool) :
    (bounds m .unknown kind safety).get s = kind.trivial safety :=
  get_bounds_of_unbounded Priors.bound?_unknown kind safety

section Detours

variable [Scalar.Ordered α]

theorem detour_zero : detour (n := n) .probability (0 : α) = [⟨sinkFalse n, 1 - 0⟩] := by
  simp [detour, Scalar.Ordered.zero_lt_one, Scalar.Ordered.lt_irrefl]

theorem detour_one : detour (n := n) .probability (1 : α) = [⟨sinkTrue n, 1⟩] := by
  simp [detour, Scalar.Ordered.zero_lt_one, Scalar.Ordered.lt_irrefl]

end Detours

/-- What a run of a shortened chain has to do for its property. -/
abbrev goal (x : Shortcut α n) : Goal (n + 2) :=
  x.property.formula.goal x.chain.labelling

namespace Shortens

variable (h : x.Shortens m priors p target)
include h

/-! ## The goal in a shortened chain -/

theorem allowed_lift (hc : p.formula.constraint? ≠ some targetLabel) :
    x.goal.allowed (lift s) ↔ (p.formula.goal m.chain.labelling).allowed s := by
  have same : x.property.formula.constraint? = p.formula.constraint? := by
    rw [h.property]
    cases hf : p.formula with
    | probability => simp [Property.withTarget, Formula.withTarget, Formula.constraint?, hf]
    | reward => simp [Property.withTarget, Formula.withTarget, Formula.constraint?, hf]
  simp only [Formula.goal, same]
  constructor
  · intro hs name hn
    have carried := hs name hn
    rwa [h.labelling, has_lift (fun e => hc (e ▸ hn))] at carried
  · intro hs name hn
    rw [h.labelling, has_lift (fun e => hc (e ▸ hn))]
    exact hs name hn

theorem target_iff {y : Fin (n + 2)} : x.goal.target y ↔ y ∈ targets m priors target := by
  have same : x.property.formula.target = targetLabel := by
    rw [h.property]
    cases hf : p.formula <;> simp [Property.withTarget, Formula.withTarget, Formula.target, hf]
  simp only [Formula.goal, same, h.labelling, has_targetLabel]

theorem target_lift : x.goal.target (lift s) ↔
    (p.formula.goal m.chain.labelling).target s ∨
      priors.isTarget (m.quotientState.get s) = true := by
  rw [h.target_iff, mem_targets_lift]
  simp only [Formula.goal, Labelling.has_of_get? h.target_eq]

theorem target_sinkTrue : x.goal.target (sinkTrue n) :=
  h.target_iff.mpr sinkTrue_mem_targets

theorem not_target_sinkFalse : ¬ x.goal.target (sinkFalse n) :=
  fun ht => sinkFalse_not_mem_targets (h.target_iff.mp ht)

theorem known (known : p.formula.Known m.chain.labelling) :
    x.property.formula.Known x.chain.labelling := by
  rw [h.property, h.labelling]
  cases hf : p.formula with
  | probability constraint label =>
    simp only [Property.withTarget, Formula.withTarget, hf]
    refine ⟨isSome_get?_targetLabel, fun name hn => isSome_get?_labelling (known.constraint name ?_)⟩
    rw [hf]
    exact hn
  | reward model label =>
    simp only [Property.withTarget, Formula.withTarget, hf]
    exact ⟨isSome_get?_targetLabel, fun name hn => by cases hn⟩

/-! ## The transitions of a shortened chain -/

theorem mem_successors_lift (hs : s ∈ x.expanded) {y : Fin (n + 2)} :
    y ∈ x.chain.successors (lift s) ↔ ∃ t ∈ m.chain.successors s, lift t = y := by
  rw [Chain.successors, h.row_lift, if_pos hs]
  simp [exactRow, Chain.successors]

theorem successors_sinkFalse : x.chain.successors (sinkFalse n) = [sinkFalse n] := by
  rw [Chain.successors, h.row_sinkFalse]
  rfl

theorem not_positive_sinkFalse : ¬ x.chain.Positive x.goal (sinkFalse n) := by
  rintro ⟨t, ht, path⟩
  -- The sink is never left, and it is no target.
  have stays : t = sinkFalse n := by
    refine path.tailInduction (motive := fun y => y = sinkFalse n) rfl ?_
    rintro y z - - hz rfl
    rw [h.successors_sinkFalse] at hz
    exact List.mem_singleton.mp hz
  exact h.not_target_sinkFalse (stays ▸ ht)

/-- A state that moves to the sink for runs that reach the target is sure of the target. -/
theorem sure_of_successors {y : Fin (n + 2)} (hy : x.chain.successors y = [sinkTrue n])
    (ha : x.goal.allowed y) : x.chain.Sure x.goal y := by
  refine .of_successors (.of_successor ha ?_ (.of_target h.target_sinkTrue)) ?_
  · rw [hy]
    exact List.mem_singleton_self _
  · intro z hz
    rw [hy] at hz
    obtain rfl := List.mem_singleton.mp hz
    exact .of_target h.target_sinkTrue

/-- **A shortened chain looks like every chain that the member looks like where it is expanded.** -/
theorem likeness (hc : p.formula.constraint? ≠ some targetLabel) {c' : Chain α n'} {g' : Goal n'}
    {known : Fin n → Prop} {related : Fin n → Fin n' → Prop}
    (marked : ∀ {s}, priors.isTarget (m.quotientState.get s) = true →
      (p.formula.goal m.chain.labelling).target s)
    (like : Likeness m.chain c' (p.formula.goal m.chain.labelling) g' known related)
    (expanded : ∀ {s}, known s → s ∈ x.expanded) :
    Likeness x.chain c' x.goal g' (fun y => ∃ s, known s ∧ lift s = y)
      (fun y s' => ∃ s, lift s = y ∧ related s s') where
  target := by
    rintro _ s' ⟨s, rfl, hr⟩
    rw [h.target_lift, ← like.target hr]
    exact ⟨fun ht => ht.elim id marked, .inl⟩
  allowed := by
    rintro _ s' ⟨s, rfl, hr⟩
    rw [h.allowed_lift hc, like.allowed hr]
  forth := by
    rintro _ s' ⟨s, rfl, hr⟩ ⟨s₁, hs, e⟩ y hy
    obtain rfl := lift_injective e
    obtain ⟨t, ht, rfl⟩ := (h.mem_successors_lift (expanded hs)).mp hy
    obtain ⟨t', ht', hr'⟩ := like.forth hr hs t ht
    exact ⟨t', ht', t, rfl, hr'⟩
  back := by
    rintro _ s' ⟨s, rfl, hr⟩ ⟨s₁, hs, e⟩ t' ht'
    obtain rfl := lift_injective e
    obtain ⟨t, ht, hr'⟩ := like.back hr hs t' ht'
    exact ⟨lift t, (h.mem_successors_lift (expanded hs)).mpr ⟨t, ht, rfl⟩, t, rfl, hr'⟩

end Shortens

/-! ## Verdicts when no bound is known in advance -/

namespace Shortens

variable [Scalar.Ordered α] {constraint : Option String} {label : String} {b : Bound α}
  {related : Fin n → Fin n' → Prop} {c' : Chain α n'} {k : Checker α}

section Bounds

variable (h : x.Shortens m priors ⟨.probability constraint label, b⟩ target)
include h

section Unbounded

variable (unbounded : ∀ q, priors.bound? q = none)
include unbounded

theorem successors_low (hb : b.comparison.isUpper = true) (hs : s ∉ x.expanded) :
    x.chain.successors (lift s) = [sinkFalse n] := by
  rw [Chain.successors, h.row_lift, if_neg hs, get_bounds_of_unbounded unbounded]
  simp [Property.isSafety, hb, BoundKind.trivial, Formula.kind, detour_zero]

theorem successors_high (hb : b.comparison.isUpper = false) (hs : s ∉ x.expanded) :
    x.chain.successors (lift s) = [sinkTrue n] := by
  rw [Chain.successors, h.row_lift, if_neg hs, get_bounds_of_unbounded unbounded]
  simp [Property.isSafety, hb, BoundKind.trivial, Formula.kind, detour_one]

/-- **States that are not expanded err low under an upper bound.** -/
theorem low (hb : b.comparison.isUpper = true) :
    Likeness.Low x.chain x.goal (fun y => ∃ s ∈ x.expanded, lift s = y)
      (fun y s' => ∃ s, lift s = y ∧ related s s') := by
  rintro _ s' ⟨s, rfl, -⟩ hk ht hp
  have hs : s ∉ x.expanded := fun hs => hk ⟨s, hs, rfl⟩
  rcases hp.target_or_successor with ht' | ⟨-, y, hy, hp⟩
  · exact ht ht'
  · rw [h.successors_low unbounded hb hs] at hy
    obtain rfl := List.mem_singleton.mp hy
    exact h.not_positive_sinkFalse hp

/-- **States that are not expanded err high under a lower bound.** -/
theorem high (hb : b.comparison.isUpper = false) :
    Likeness.High x.chain x.goal (fun y => ∃ s ∈ x.expanded, lift s = y)
      (fun y s' => ∃ s, lift s = y ∧ related s s') := by
  rintro _ s' ⟨s, rfl, -⟩ hk - ha
  have hs : s ∉ x.expanded := fun hs => hk ⟨s, hs, rfl⟩
  exact h.sure_of_successors (h.successors_high unbounded hb hs) ha

end Unbounded

section Extreme

variable (known : (Formula.probability constraint label).Known m.chain.labelling)
  (extreme : (b.threshold == 0 || b.threshold == 1) = true)
include known extreme

omit [Scalar.Ordered α] in
/-- The checker answers a shortened chain. -/
theorem answers : ∃ r, k.check x.chain x.property = .ok r := by
  have known_x := h.known known
  rw [h.property] at known_x ⊢
  obtain ⟨r, hr, -⟩ := Checker.check_extreme k known_x extreme
  exact ⟨r, hr⟩

omit [Scalar.Ordered α] in
theorem violates_iff : k.Violates x.chain x.property ↔
    b.holds (x.chain.chance x.goal (lift m.chain.initial)) = false := by
  have known_x := h.known known
  rw [h.property] at known_x
  rw [goal, h.property, ← h.initial]
  exact Checker.violates_iff known_x extreme

omit [Scalar.Ordered α] in
theorem satisfies_iff : k.Satisfies x.chain x.property ↔
    b.holds (x.chain.chance x.goal (lift m.chain.initial)) = true := by
  have known_x := h.known known
  rw [h.property] at known_x
  rw [goal, h.property, ← h.initial]
  exact Checker.satisfies_iff known_x extreme

/-- **Expanding more states never turns a violation back.** -/
theorem violates_of_subset (unbounded : ∀ q, priors.bound? q = none) {x' : Shortcut α n}
    (h' : x'.Shortens m priors ⟨.probability constraint label, b⟩ target)
    (sub : ∀ s ∈ x.expanded, s ∈ x'.expanded) (hv : k.Violates x.chain x.property) :
    k.Violates x'.chain x'.property := by
  rw [h.violates_iff known extreme] at hv
  rw [h'.violates_iff known extreme]
  have goal_eq : x'.goal = x.goal := by
    rw [goal, goal, h'.property, h'.labelling, h.property, h.labelling]
  -- Where the first chain is expanded, so is the second one.
  have like : Likeness x.chain x'.chain x.goal x'.goal (fun y => ∃ s ∈ x.expanded, lift s = y)
      (fun y y' => ∃ s, lift s = y ∧ lift s = y') := by
    constructor
    case target =>
      rintro _ _ ⟨s, rfl, rfl⟩
      rw [goal_eq]
    case allowed =>
      rintro _ _ ⟨s, rfl, rfl⟩
      rw [goal_eq]
    case forth =>
      rintro _ _ ⟨s, rfl, rfl⟩ ⟨r, hs, e⟩ y hy
      obtain rfl := lift_injective e
      obtain ⟨t, ht, rfl⟩ := (h.mem_successors_lift hs).mp hy
      exact ⟨lift t, (h'.mem_successors_lift (sub r hs)).mpr ⟨t, ht, rfl⟩, t, rfl, rfl⟩
    case back =>
      rintro _ _ ⟨s, rfl, rfl⟩ ⟨r, hs, e⟩ y hy
      obtain rfl := lift_injective e
      obtain ⟨t, ht, rfl⟩ := (h'.mem_successors_lift (sub r hs)).mp hy
      exact ⟨lift t, (h.mem_successors_lift hs).mpr ⟨t, ht, rfl⟩, t, rfl, rfl⟩
  exact like.violated (h.low unbounded) (h.high unbounded) ⟨_, rfl, rfl⟩ hv

end Extreme

end Bounds

/-! ## Verdicts when nothing is known in advance -/

section Unknown

variable (h : x.Shortens m .unknown ⟨.probability constraint label, b⟩ target)
  (known : (Formula.probability constraint label).Known m.chain.labelling)
  (extreme : (b.threshold == 0 || b.threshold == 1) = true)
  (hc : constraint ≠ some targetLabel)
  (known' : (Formula.probability constraint label).Known c'.labelling)
  (like : Likeness m.chain c' ((Formula.probability constraint label).goal m.chain.labelling)
    ((Formula.probability constraint label).goal c'.labelling) (· ∈ x.expanded) related)
  (hr : related m.chain.initial c'.initial)
include h known extreme hc known' like hr

/-- **If a shortened chain violates a property, so does every chain that looks like the member where the
member is expanded.** -/
theorem violates (hv : k.Violates x.chain x.property) :
    k.Violates c' ⟨.probability constraint label, b⟩ := by
  rw [h.violates_iff known extreme] at hv
  rw [Checker.violates_iff known' extreme]
  exact ((h.likeness hc (by simp) like id).violated (h.low Priors.bound?_unknown)
    (h.high Priors.bound?_unknown)) ⟨_, rfl, hr⟩ hv

omit [Scalar.Ordered α] in
/-- **If all related states are expanded, a property that a shortened chain satisfies is satisfied.** -/
theorem satisfies (all : ∀ {s s'}, related s s' → s ∈ x.expanded)
    (hs : k.Satisfies x.chain x.property) : k.Satisfies c' ⟨.probability constraint label, b⟩ := by
  rw [h.satisfies_iff known extreme] at hs
  rw [Checker.satisfies_iff known' extreme]
  have chance : (x.chain.chance x.goal (lift m.chain.initial) : α)
      = c'.chance ((Formula.probability constraint label).goal c'.labelling) c'.initial := by
    refine (h.likeness hc (by simp) like id).chance_eq ?_ ⟨_, rfl, hr⟩
    rintro _ s' ⟨s, rfl, hr⟩
    exact ⟨s, all hr, rfl⟩
  rw [← chance]
  exact hs

end Unknown

end Shortens

end Shortcut

end HoleBlame
