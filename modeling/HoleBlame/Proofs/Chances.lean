import HoleBlame.Checker
import HoleBlame.Proofs.Order
import HoleBlame.Proofs.Paths

/-!
# The chances of reaching a target

A `Goal` is what a run has to do: reach a target by way of states that are allowed.  Whether a state has
a positive chance of that, and whether it is sure of it, are questions about paths (`Chain.Positive`,
`Chain.Sure`), and the two sets that the checker computes answer them (`Checker.mem_never`,
`Checker.mem_surely`).

A property whose threshold is zero or one is therefore decided by paths alone: a state satisfies it iff
the bound holds of the state's `chance` (`Checker.check_extreme`, and for the initial state
`Checker.violates_iff` and `Checker.satisfies_iff`).  Since bounds are monotone, a state
with better chances satisfies every lower bound that one with worse chances satisfies, and no upper
bound that the other violates (`Chain.holds_chance`).
-/

namespace HoleBlame

/-- What a run has to do: reach a target by way of allowed states. -/
structure Goal (n : Nat) where
  /-- The run may pass through the state. -/
  allowed : Fin n → Prop
  /-- The state is a target. -/
  target : Fin n → Prop

variable {α : Type} {n : Nat}

namespace Chain

/-- Some path leads to a target, and all states before it are allowed. -/
def Positive (c : Chain α n) (g : Goal n) (s : Fin n) : Prop :=
  ∃ t, g.target t ∧ c.Path g.allowed s t

/-- No path through allowed states that are no targets leads to a state without a positive chance. -/
def Sure (c : Chain α n) (g : Goal n) (s : Fin n) : Prop :=
  ∀ t, c.Path (fun x => g.allowed x ∧ ¬ g.target x) s t → c.Positive g t

variable {c : Chain α n} {g : Goal n} {s t : Fin n}

theorem Positive.of_target (h : g.target s) : c.Positive g s :=
  ⟨s, h, .refl⟩

theorem Positive.of_successor (ha : g.allowed s) (ht : t ∈ c.successors s) (h : c.Positive g t) :
    c.Positive g s := by
  obtain ⟨u, hu, path⟩ := h
  exact ⟨u, hu, path.head ha ht⟩

/-- A state with a positive chance is a target, or it is allowed and some successor has a positive
chance. -/
theorem Positive.target_or_successor (h : c.Positive g s) :
    g.target s ∨ g.allowed s ∧ ∃ t ∈ c.successors s, c.Positive g t := by
  obtain ⟨u, hu, path⟩ := h
  rcases path.cases_head with rfl | ⟨ha, t, ht, rest⟩
  · exact .inl hu
  · exact .inr ⟨ha, t, ht, u, hu, rest⟩

theorem Sure.positive (h : c.Sure g s) : c.Positive g s :=
  h s .refl

theorem Sure.of_target (h : g.target s) : c.Sure g s := by
  intro t path
  rcases path.cases_head with rfl | ⟨ha, _⟩
  · exact .of_target h
  · exact absurd h ha.2

/-- A sure state that is no target has only sure successors. -/
theorem Sure.successor (h : c.Sure g s) (hs : ¬ g.target s) (ht : t ∈ c.successors s) :
    c.Sure g t := by
  have allowed : g.allowed s :=
    (h.positive.target_or_successor.resolve_left hs).1
  intro u path
  exact h u (path.head ⟨allowed, hs⟩ ht)

/-- A state with a positive chance all of whose successors are sure is sure. -/
theorem Sure.of_successors (h : c.Positive g s) (hall : ∀ t ∈ c.successors s, c.Sure g t) :
    c.Sure g s := by
  intro t path
  rcases path.cases_head with rfl | ⟨_, u, hu, rest⟩
  · exact h
  · exact hall u hu t rest

variable {n' : Nat} {c' : Chain α n'} {g' : Goal n'} {s' : Fin n'}

open Classical in
/-- The value that stands for the chance of a state: zero for none, one for certainty, and one half for
everything in between. -/
noncomputable def chance [Scalar α] (c : Chain α n) (g : Goal n) (s : Fin n) : α :=
  if c.Positive g s then if c.Sure g s then 1 else Scalar.half else 0

variable [Scalar α] [Scalar.Ordered α]

theorem chance_eq_or_lt (hpos : c.Positive g s → c'.Positive g' s')
    (hsure : c.Sure g s → c'.Sure g' s') :
    c.chance g s = c'.chance g' s' ∨ (c.chance g s : α) < c'.chance g' s' := by
  unfold chance
  by_cases hp : c.Positive g s
  · rw [if_pos hp, if_pos (hpos hp)]
    by_cases hs : c.Sure g s
    · rw [if_pos hs, if_pos (hsure hs)]
      exact .inl rfl
    · rw [if_neg hs]
      by_cases hs' : c'.Sure g' s'
      · rw [if_pos hs']
        exact .inr Scalar.Ordered.half_lt_one
      · rw [if_neg hs']
        exact .inl rfl
  · rw [if_neg hp]
    by_cases hp' : c'.Positive g' s'
    · rw [if_pos hp']
      by_cases hs' : c'.Sure g' s'
      · rw [if_pos hs']
        exact .inr Scalar.Ordered.zero_lt_one
      · rw [if_neg hs']
        exact .inr Scalar.Ordered.zero_lt_half
    · rw [if_neg hp']
      exact .inl rfl

/-- **Better chances satisfy more lower bounds and fewer upper bounds.** -/
theorem holds_chance (b : Bound α) (hpos : c.Positive g s → c'.Positive g' s')
    (hsure : c.Sure g s → c'.Sure g' s') :
    (b.comparison.isUpper = true → b.holds (c'.chance g' s') = true →
        b.holds (c.chance g s) = true) ∧
      (b.comparison.isUpper = false → b.holds (c.chance g s) = true →
        b.holds (c'.chance g' s') = true) := by
  rcases chance_eq_or_lt hpos hsure with h | h
  · rw [h]
    exact ⟨fun _ => id, fun _ => id⟩
  · exact Comparison.holds_of_lt h

end Chain

/-! ## What the checker computes -/

namespace Formula

/-- The label of the states that a run may pass through, if there is one. -/
def constraint? : Formula → Option String
  | probability constraint _ => constraint
  | reward .. => none

/-- What a run has to do for a formula. -/
def goal (f : Formula) (L : Labelling n) : Goal n where
  allowed s := ∀ name, f.constraint? = some name → L.has s name = true
  target s := L.has s f.target = true

/-- The labels that a formula speaks of exist. -/
structure Known (f : Formula) (L : Labelling n) : Prop where
  target : (L.get? f.target).isSome = true
  constraint : ∀ name, f.constraint? = some name → (L.get? name).isSome = true

end Formula

theorem Labelling.has_of_get? {L : Labelling n} {name : String} {states : StateSet n}
    (h : L.get? name = some states) {s : Fin n} : L.has s name = true ↔ s ∈ states := by
  simp [Labelling.has, h]

namespace Checker

/-- The goal of reaching some states through some states. -/
def goalOf (constraint : Option (StateSet n)) (target : StateSet n) : Goal n where
  allowed s := ∀ states, constraint = some states → s ∈ states
  target s := s ∈ target

/-- The test by which the checker tells allowed states. -/
def allows (constraint : Option (StateSet n)) (s : Fin n) : Bool :=
  match constraint with
  | none => true
  | some states => s ∈ states

theorem allows_iff {constraint : Option (StateSet n)} {s : Fin n} :
    allows constraint s = true ↔ ∀ states, constraint = some states → s ∈ states := by
  cases constraint with
  | none => simp [allows]
  | some states => simp [allows]

variable {c : Chain α n} {constraint : Option (StateSet n)} {target : StateSet n} {s : Fin n}

/-- **The checker's first set: the states without a positive chance.** -/
theorem mem_never :
    s ∈ (extremes c constraint target).never ↔ ¬ c.Positive (goalOf constraint target) s := by
  have through : (fun x => allows constraint x = true) = (goalOf constraint target).allowed :=
    funext fun _ => propext allows_iff
  change s ∈ (Graph.backward (Graph.predecessors c) target (allows constraint)).compl ↔ _
  rw [StateSet.mem_compl, Graph.mem_backward, through]
  rfl

/-- **The checker's second set: the states that are sure of the target.** -/
theorem mem_surely :
    s ∈ (extremes c constraint target).surely ↔ c.Sure (goalOf constraint target) s := by
  have through : (fun x => (allows constraint x && !decide (x ∈ target)) = true)
      = fun x => (goalOf constraint target).allowed x ∧ ¬ (goalOf constraint target).target x := by
    funext x
    simp [allows_iff, goalOf]
  change s ∈ (Graph.backward (Graph.predecessors c) (extremes c constraint target).never
    fun x => allows constraint x && !decide (x ∈ target)).compl ↔ _
  rw [StateSet.mem_compl, Graph.mem_backward, through]
  constructor
  · intro h t path
    by_contra ht
    exact h ⟨t, mem_never.mpr ht, path⟩
  · rintro h ⟨t, ht, path⟩
    exact mem_never.mp ht (h t path)

/-- The label of a name that exists. -/
theorem label_of_isSome {name : String} (h : (c.labelling.get? name).isSome = true) :
    ∃ states, label c name = .ok states ∧ c.labelling.get? name = some states := by
  obtain ⟨states, hs⟩ := Option.isSome_iff_exists.mp h
  exact ⟨states, by simp [label, hs], hs⟩

/-- The states of a target make the goal of a formula that has no constraint. -/
theorem goalOf_none {f : Formula} {states : StateSet n}
    (ht : c.labelling.get? f.target = some states) (hc : f.constraint? = none) :
    goalOf none states = f.goal c.labelling := by
  have target_eq : (fun s => s ∈ states) = fun s => c.labelling.has s f.target = true :=
    funext fun s => propext (Labelling.has_of_get? ht).symm
  simp only [goalOf, Formula.goal, hc, target_eq]
  simp

/-- The labels that a formula speaks of give the sets of its goal. -/
theorem labels_of_known {constraint : Option String} {target : String}
    (known : (Formula.probability constraint target).Known c.labelling) :
    ∃ through states, label c target = .ok states ∧ label? c constraint = .ok through ∧
      goalOf through states = (Formula.probability constraint target).goal c.labelling := by
  obtain ⟨states, hlabel, hget⟩ := label_of_isSome known.target
  cases constraint with
  | none => exact ⟨none, states, hlabel, rfl, goalOf_none hget rfl⟩
  | some name =>
    have target_eq : (fun s => s ∈ states) = fun s => c.labelling.has s target = true :=
      funext fun s => propext (Labelling.has_of_get? hget).symm
    obtain ⟨through, hlabel', hget'⟩ := label_of_isSome (known.constraint name rfl)
    refine ⟨some through, states, hlabel, by simp [label?, hlabel', Except.map], ?_⟩
    have through_eq : (fun s => s ∈ through) = fun s => c.labelling.has s name = true :=
      funext fun s => propext (Labelling.has_of_get? hget').symm
    simp only [goalOf, Formula.goal, Formula.constraint?, Formula.target, target_eq,
      Option.some.injEq, forall_eq', through_eq]

variable [Scalar α]

/-- The checker finds that the initial state of a chain violates a property. -/
def Violates (k : Checker α) (c : Chain α n) (p : Property α) : Prop :=
  ∃ r, k.check c p = .ok r ∧ r.satisfies c.initial p.bound = false

/-- The checker finds that the initial state of a chain satisfies a property. -/
def Satisfies (k : Checker α) (c : Chain α n) (p : Property α) : Prop :=
  ∃ r, k.check c p = .ok r ∧ r.satisfies c.initial p.bound = true

/-- The value by which the checker judges a state is the state's chance. -/
theorem judged_eq_chance :
    (if s ∈ (extremes c constraint target).never then 0
      else if s ∈ (extremes c constraint target).surely then 1 else Scalar.half : α)
      = c.chance (goalOf constraint target) s := by
  unfold Chain.chance
  by_cases hp : c.Positive (goalOf constraint target) s
  · rw [if_neg (fun h => mem_never.mp h hp), if_pos hp]
    by_cases hs : c.Sure (goalOf constraint target) s
    · rw [if_pos (mem_surely.mpr hs), if_pos hs]
    · rw [if_neg (fun h => hs (mem_surely.mp h)), if_neg hs]
  · rw [if_pos (mem_never.mpr hp), if_neg hp]

theorem check_probability (k : Checker α) {constraint : Option String} {name : String} {b : Bound α}
    {through : Option (StateSet n)} {target : StateSet n} (ht : label c name = .ok target)
    (hc : label? c constraint = .ok through) : k.check c ⟨.probability constraint name, b⟩ =
      if b.threshold == 0 || b.threshold == 1 then
        .ok (.qualitative (.ofFn fun s => b.holds
          (if s ∈ (extremes c through target).never then 0
            else if s ∈ (extremes c through target).surely then 1 else Scalar.half)))
      else
        k.values c (fun _ => 0)
          ((extremes c through target).never.union (extremes c through target).surely).compl
          (.ofFn fun s => if s ∈ (extremes c through target).surely then 1 else 0) := by
  simp only [check, ht, hc, bind, Except.bind]

theorem check_reward (k : Checker α) {model name : String} {b : Bound α} {target : StateSet n}
    {rewards : RewardModel α n} (ht : label c name = .ok target)
    (hm : c.rewardModel? model = some rewards) : k.check c ⟨.reward model name, b⟩ =
      k.values c (fun s => rewards.rewards.get s)
        ((extremes c none target).surely.inter target.compl)
        (.ofFn fun s => if s ∈ (extremes c none target).surely then 0 else Scalar.infinity) := by
  simp only [check, ht, hm, bind, Except.bind]

/-- A property whose threshold is zero or one is answered by the states whose chance satisfies the
bound. -/
theorem check_eq_qualitative (k : Checker α) {constraint : Option String} {target : String}
    {b : Bound α} (known : (Formula.probability constraint target).Known c.labelling)
    (extreme : (b.threshold == 0 || b.threshold == 1) = true) :
    k.check c ⟨.probability constraint target, b⟩ = .ok (.qualitative (.ofFn fun s =>
      b.holds (c.chance ((Formula.probability constraint target).goal c.labelling) s))) := by
  obtain ⟨through, states, ht, hc, goal_eq⟩ := labels_of_known known
  rw [check_probability k ht hc, if_pos extreme, ← goal_eq]
  simp only [judged_eq_chance]

/-- **A property whose threshold is zero or one is decided by chances alone.** -/
theorem check_extreme (k : Checker α) {constraint : Option String} {target : String} {b : Bound α}
    (known : (Formula.probability constraint target).Known c.labelling)
    (extreme : (b.threshold == 0 || b.threshold == 1) = true) :
    ∃ r, k.check c ⟨.probability constraint target, b⟩ = .ok r ∧
      ∀ s bound, r.satisfies s bound =
        b.holds (c.chance ((Formula.probability constraint target).goal c.labelling) s) := by
  refine ⟨_, check_eq_qualitative k known extreme, fun s bound => ?_⟩
  simp [CheckResult.satisfies]

section Extreme

variable {k : Checker α} {constraint : Option String} {target : String} {b : Bound α}
  (known : (Formula.probability constraint target).Known c.labelling)
  (extreme : (b.threshold == 0 || b.threshold == 1) = true)
include known extreme

theorem violates_iff : k.Violates c ⟨.probability constraint target, b⟩ ↔
    b.holds (c.chance ((Formula.probability constraint target).goal c.labelling) c.initial)
      = false := by
  obtain ⟨r, hr, judged⟩ := check_extreme k known extreme
  constructor
  · rintro ⟨r', hr', hv⟩
    rw [hr] at hr'
    cases hr'
    rw [← judged]
    exact hv
  · intro hv
    exact ⟨r, hr, by rw [judged, hv]⟩

theorem satisfies_iff : k.Satisfies c ⟨.probability constraint target, b⟩ ↔
    b.holds (c.chance ((Formula.probability constraint target).goal c.labelling) c.initial)
      = true := by
  obtain ⟨r, hr, judged⟩ := check_extreme k known extreme
  constructor
  · rintro ⟨r', hr', hs⟩
    rw [hr] at hr'
    cases hr'
    rw [← judged]
    exact hs
  · intro hs
    exact ⟨r, hr, by rw [judged, hs]⟩

end Extreme

end Checker

end HoleBlame
