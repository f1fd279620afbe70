import HoleBlame.Proofs.Labels

/-!
# What a shortened chain looks like

However states are expanded, a shortened chain depends on the set of expanded states alone.
`Shortcut.Shortens` says what it looks like: an expanded state has its transitions and its reward in
the member, any other state its detour and its bound, and the sinks are never left.  A chain none of
whose states is expanded looks like this (`Shortcut.shortens_of_ofMember`), and expanding states
preserves it (`Shortcut.Shortens.expand`), which adds these states to the expanded ones and no others
(`Shortcut.mem_expanded_expand`).  So what has been expanded can be told from the chain alone
(`Shortcut.shows_expand`).
-/

namespace HoleBlame

variable {α : Type} {n : Nat}

namespace Formula

/-- What a bound on the value of the formula is a bound on. -/
def kind : Formula → BoundKind
  | probability .. => .probability
  | reward .. => .reward

/-- The reward model that a formula speaks of. -/
def model? : Formula → Option String
  | probability .. => none
  | reward model _ => some model

theorem kind_of_model? {f : Formula} {model : String} (h : f.model? = some model) :
    f.kind = .reward := by
  cases f with
  | probability => cases h
  | reward => rfl

theorem kind_of_model?_eq_none {f : Formula} (h : f.model? = none) : f.kind = .probability := by
  cases f with
  | probability => rfl
  | reward => cases h

end Formula

/-- The reward of a state in a model, which is zero if there is no such model. -/
def Chain.rewardAt [Scalar α] (c : Chain α n) (model : String) (s : Fin n) : α :=
  (c.rewardModel? model).elim 0 fun rewards => rewards.rewards.get s

namespace Shortcut

section Append

variable {β : Type} {u : Vector β n} {v : Vector β 2}

theorem get_append_lift (s : Fin n) : (u.append v).get (lift s) = u.get s := by
  rw [get_eq_getElem, get_eq_getElem]
  exact Vector.getElem_append_left s.isLt

theorem get_append_sinkFalse : (u.append v).get (sinkFalse n) = v.get 0 := by
  show (u ++ v)[n] = v[0]
  simp

theorem get_append_sinkTrue : (u.append v).get (sinkTrue n) = v.get 1 := by
  show (u ++ v)[n + 1] = v[1]
  simp

end Append

variable [Scalar α]

/-- What a shortened chain of a member looks like, given the states that are expanded. -/
structure Shortens (x : Shortcut α n) (m : Member α n) (priors : Priors α) (p : Property α)
    (target : StateSet n) : Prop where
  target_eq : m.chain.labelling.get? p.formula.target = some target
  source : x.source = m.chain
  property : x.property = p.withTarget targetLabel
  initial : x.chain.initial = lift m.chain.initial
  labelling : x.chain.labelling = labelling m priors target
  row_lift : ∀ s, x.chain.row (lift s) =
    if s ∈ x.expanded then exactRow m.chain s
    else detour p.formula.kind ((bounds m priors p.formula.kind p.isSafety).get s)
  row_sinkFalse : x.chain.row (sinkFalse n) = [⟨sinkFalse n, 1⟩]
  row_sinkTrue : x.chain.row (sinkTrue n) = [⟨sinkTrue n, 1⟩]
  model : x.chain.reward.map (·.name) = p.formula.model?
  reward_lift : ∀ r, x.chain.reward = some r → ∀ s, r.rewards.get (lift s) =
    if s ∈ x.expanded then m.chain.rewardAt r.name s
    else (bounds m priors p.formula.kind p.isSafety).get s
  reward_sinkFalse : ∀ r, x.chain.reward = some r → r.rewards.get (sinkFalse n) = 0
  reward_sinkTrue : ∀ r, x.chain.reward = some r → r.rewards.get (sinkTrue n) = 0

variable {m : Member α n} {priors : Priors α} {p : Property α} {target : StateSet n}
  {x : Shortcut α n}

/-! ## The beginning -/

/-- The chain of a member none of whose states is expanded. -/
def detours (m : Member α n) (priors : Priors α) (p : Property α) (target : StateSet n)
    (kind : BoundKind) (model : Option String) : Chain α (n + 2) where
  initial := lift m.chain.initial
  rows := ((bounds m priors kind p.isSafety).map (detour kind)).append (sinkRows n)
  labelling := labelling m priors target
  reward := model.map fun name => ⟨name, (bounds m priors kind p.isSafety).append sinkRewards⟩

theorem unexpanded_eq_ok {kind : BoundKind} {model : Option String}
    (accepted : refused? m priors kind = none) : unexpanded m priors p target kind model =
      .ok ⟨m.chain, p.withTarget targetLabel, detours m priors p target kind model, .empty n, 0,
        (detours m priors p target kind model).numTransitions⟩ := by
  unfold unexpanded
  rw [accepted]
  rfl

section Detours

variable {kind : BoundKind} {model : Option String}

theorem row_detours_lift (s : Fin n) : (detours m priors p target kind model).row (lift s) =
    detour kind ((bounds m priors kind p.isSafety).get s) := by
  rw [Chain.row, detours, get_append_lift]
  simp [get_eq_getElem]

theorem row_detours_sinkFalse :
    (detours m priors p target kind model).row (sinkFalse n) = [⟨sinkFalse n, 1⟩] :=
  get_append_sinkFalse

theorem row_detours_sinkTrue :
    (detours m priors p target kind model).row (sinkTrue n) = [⟨sinkTrue n, 1⟩] :=
  get_append_sinkTrue

end Detours

theorem unexpanded_ok (ht : m.chain.labelling.get? p.formula.target = some target)
    (h : unexpanded m priors p target p.formula.kind p.formula.model? = .ok x) :
    x.Shortens m priors p target ∧ x.expanded = .empty n := by
  cases hr : refused? m priors p.formula.kind with
  | some refused =>
    unfold unexpanded at h
    rw [hr] at h
    cases h
  | none =>
    rw [unexpanded_eq_ok hr] at h
    cases h
    refine ⟨?_, rfl⟩
    constructor
    case target_eq => exact ht
    case source | property | initial | labelling => rfl
    case row_lift =>
      intro s
      rw [if_neg StateSet.not_mem_empty]
      exact row_detours_lift s
    case row_sinkFalse => exact row_detours_sinkFalse
    case row_sinkTrue => exact row_detours_sinkTrue
    case model => simp [detours, Function.comp_def]
    case reward_lift =>
      intro r hr s
      obtain ⟨name, -, rfl⟩ := Option.map_eq_some_iff.mp hr
      rw [if_neg StateSet.not_mem_empty]
      exact get_append_lift s
    case reward_sinkFalse =>
      intro r hr
      obtain ⟨name, -, rfl⟩ := Option.map_eq_some_iff.mp hr
      exact get_append_sinkFalse
    case reward_sinkTrue =>
      intro r hr
      obtain ⟨name, -, rfl⟩ := Option.map_eq_some_iff.mp hr
      exact get_append_sinkTrue

/-- No state is refused if all bounds that are known make sense. -/
theorem refused?_eq_none {kind : BoundKind}
    (h : ∀ q bound, priors.bound? q = some bound → kind.accepts bound = true) :
    refused? m priors kind = none := by
  rw [refused?, List.findSome?_eq_none_iff]
  intro q _
  cases hb : priors.bound? q with
  | none => rfl
  | some bound =>
    rw [Option.filter, h q bound hb]
    rfl

theorem unexpanded_of_refused?_eq_none (kind : BoundKind) (model : Option String)
    (h : refused? m priors kind = none) : ∃ x, unexpanded m priors p target kind model = .ok x :=
  ⟨_, unexpanded_eq_ok h⟩

/-- A member can be shortened for a property whose labels and reward model exist as soon as its bounds
make sense. -/
theorem ofMember_eq_unexpanded (ht : m.chain.labelling.get? p.formula.target = some target)
    (known : p.formula.Known m.chain.labelling)
    (model : ∀ name, p.formula.model? = some name → (m.chain.rewardModel? name).isSome = true) :
    ofMember m priors p = unexpanded m priors p target p.formula.kind p.formula.model? := by
  unfold ofMember
  rw [ht]
  obtain ⟨formula, bound⟩ := p
  cases formula with
  | probability constraint label =>
    cases constraint with
    | none => rfl
    | some constraint =>
      obtain ⟨states, hc⟩ := Option.isSome_iff_exists.mp (known.constraint constraint rfl)
      simp [hc, Formula.kind, Formula.model?]
  | reward name label =>
    obtain ⟨rewards, hr⟩ := Option.isSome_iff_exists.mp (model name rfl)
    simp [hr, Formula.kind, Formula.model?]

/-- A member has a shortened chain as soon as the labels and the reward model of the property exist and
all bounds that are known make sense. -/
theorem exists_ofMember (known : p.formula.Known m.chain.labelling)
    (model : ∀ name, p.formula.model? = some name → (m.chain.rewardModel? name).isSome = true)
    (accepted : ∀ q bound, priors.bound? q = some bound → p.formula.kind.accepts bound = true) :
    ∃ x, ofMember m priors p = .ok x := by
  obtain ⟨states, ht⟩ := Option.isSome_iff_exists.mp known.target
  rw [ofMember_eq_unexpanded ht known model]
  exact unexpanded_of_refused?_eq_none _ _ (refused?_eq_none accepted)

/-- A member that has been shortened has the labels and the reward model of the property. -/
theorem known_of_ofMember (h : ofMember m priors p = .ok x) :
    p.formula.Known m.chain.labelling ∧
      ∀ name, p.formula.model? = some name → (m.chain.rewardModel? name).isSome = true := by
  unfold ofMember at h
  split at h
  · cases h
  · next ht =>
    obtain ⟨formula, bound⟩ := p
    cases formula with
    | probability constraint label =>
      refine ⟨⟨by rw [ht]; rfl, ?_⟩, fun _ h => by cases h⟩
      rintro name ⟨⟩
      by_contra hn
      simp [Option.not_isSome_iff_eq_none.mp hn] at h
    | reward model label =>
      refine ⟨⟨by rw [ht]; rfl, fun _ h => by cases h⟩, ?_⟩
      rintro name ⟨⟩
      by_contra hn
      simp [Option.not_isSome_iff_eq_none.mp hn] at h

/-- **A shortened chain starts with no state expanded.** -/
theorem shortens_of_ofMember (h : ofMember m priors p = .ok x) :
    ∃ target, x.Shortens m priors p target ∧ x.expanded = .empty n := by
  obtain ⟨known, model⟩ := known_of_ofMember h
  obtain ⟨target, ht⟩ := Option.isSome_iff_exists.mp known.target
  rw [ofMember_eq_unexpanded ht known model] at h
  exact ⟨target, unexpanded_ok ht h⟩

/-! ## Expanding -/

/-- A shortened chain in which one state looks as it does in the member. -/
def exactAt (c : Chain α n) (s : Fin n) (shortened : Chain α (n + 2)) : Chain α (n + 2) :=
  { shortened with
    rows := assign shortened.rows (lift s) (exactRow c s)
    reward := shortened.reward.map (exactReward c s) }

theorem row_exactAt {c : Chain α n} {s : Fin n} {shortened : Chain α (n + 2)} (y : Fin (n + 2)) :
    (exactAt c s shortened).row y = if y = lift s then exactRow c s else shortened.row y :=
  get_assign _ _ _ _

theorem get_exactReward {c : Chain α n} {s : Fin n} {r : RewardModel α (n + 2)} (y : Fin (n + 2)) :
    (exactReward c s r).rewards.get y = if y = lift s then c.rewardAt r.name s else r.rewards.get y :=
  get_assign _ _ _ _

theorem expandState_of_mem {s : Fin n} (hs : s ∈ x.expanded) : x.expandState s = x :=
  if_pos hs

theorem expandState_of_not_mem {s : Fin n} (hs : s ∉ x.expanded) : x.expandState s =
    ⟨x.source, x.property, exactAt x.source s x.chain, x.expanded.insert s, x.numExpanded + 1,
      x.numTransitions - (x.chain.row (lift s)).length + (exactRow x.source s).length⟩ :=
  if_neg hs

namespace Shortens

theorem expandState (h : x.Shortens m priors p target) (s : Fin n) :
    (x.expandState s).Shortens m priors p target := by
  by_cases hs : s ∈ x.expanded
  · rw [expandState_of_mem hs]
    exact h
  · rw [expandState_of_not_mem hs]
    -- Only the row and the reward of the state change, and it joins the expanded ones.
    constructor
    case target_eq => exact h.target_eq
    case source => exact h.source
    case property => exact h.property
    case initial => exact h.initial
    case labelling => exact h.labelling
    case row_lift =>
      intro t
      rw [row_exactAt, h.source]
      simp only [StateSet.mem_insert]
      by_cases ht : t = s
      · subst ht
        rw [if_pos rfl, if_pos (.inl rfl)]
      · rw [if_neg (fun e => ht (lift_injective e))]
        simp only [ht, false_or]
        exact h.row_lift t
    case row_sinkFalse =>
      rw [row_exactAt, if_neg (lift_ne_sinkFalse s).symm]
      exact h.row_sinkFalse
    case row_sinkTrue =>
      rw [row_exactAt, if_neg (lift_ne_sinkTrue s).symm]
      exact h.row_sinkTrue
    case model =>
      rw [← h.model, exactAt, Option.map_map]
      rfl
    case reward_lift =>
      intro r hr t
      obtain ⟨r, hx, rfl⟩ := Option.map_eq_some_iff.mp hr
      rw [get_exactReward, h.source]
      simp only [StateSet.mem_insert]
      by_cases ht : t = s
      · subst ht
        rw [if_pos rfl, if_pos (.inl rfl)]
        rfl
      · rw [if_neg (fun e => ht (lift_injective e))]
        simp only [ht, false_or]
        exact h.reward_lift r hx t
    case reward_sinkFalse =>
      intro r hr
      obtain ⟨r, hx, rfl⟩ := Option.map_eq_some_iff.mp hr
      rw [get_exactReward, if_neg (lift_ne_sinkFalse s).symm]
      exact h.reward_sinkFalse r hx
    case reward_sinkTrue =>
      intro r hr
      obtain ⟨r, hx, rfl⟩ := Option.map_eq_some_iff.mp hr
      rw [get_exactReward, if_neg (lift_ne_sinkTrue s).symm]
      exact h.reward_sinkTrue r hx

/-- **Expanding states preserves what a shortened chain looks like.** -/
theorem expand (h : x.Shortens m priors p target) (states : List (Fin n)) :
    (x.expand states).Shortens m priors p target := by
  induction states generalizing x with
  | nil => exact h
  | cons s rest ih => exact ih (h.expandState s)

theorem kind (h : x.Shortens m priors p target) : x.property.formula.kind = p.formula.kind := by
  rw [h.property]
  obtain ⟨formula, bound⟩ := p
  cases formula <;> rfl

theorem model? (h : x.Shortens m priors p target) :
    x.property.formula.model? = p.formula.model? := by
  rw [h.property]
  obtain ⟨formula, bound⟩ := p
  cases formula <;> rfl

section Reward

variable (h : x.Shortens m priors p target) {model : String} (hm : p.formula.model? = some model)
include h hm

theorem exists_reward : ∃ r, x.chain.reward = some r ∧ r.name = model ∧
    ∀ y, x.chain.rewardAt model y = r.rewards.get y := by
  have named := h.model
  rw [hm] at named
  obtain ⟨r, hr, rfl⟩ := Option.map_eq_some_iff.mp named
  refine ⟨r, hr, rfl, fun y => ?_⟩
  simp [Chain.rewardAt, Chain.rewardModel?, hr, Option.filter]

theorem rewardAt_lift (s : Fin n) : x.chain.rewardAt model (lift s) =
    if s ∈ x.expanded then m.chain.rewardAt model s
    else (bounds m priors p.formula.kind p.isSafety).get s := by
  obtain ⟨r, hr, rfl, get⟩ := h.exists_reward hm
  rw [get, h.reward_lift r hr s]

theorem rewardAt_sinkFalse : x.chain.rewardAt model (sinkFalse n) = 0 := by
  obtain ⟨r, hr, rfl, get⟩ := h.exists_reward hm
  rw [get, h.reward_sinkFalse r hr]

theorem rewardAt_sinkTrue : x.chain.rewardAt model (sinkTrue n) = 0 := by
  obtain ⟨r, hr, rfl, get⟩ := h.exists_reward hm
  rw [get, h.reward_sinkTrue r hr]

end Reward

end Shortens

theorem mem_expanded_expandState {s t : Fin n} :
    t ∈ (x.expandState s).expanded ↔ t = s ∨ t ∈ x.expanded := by
  by_cases hs : s ∈ x.expanded
  · rw [expandState_of_mem hs]
    constructor
    · exact .inr
    · rintro (rfl | ht)
      · exact hs
      · exact ht
  · rw [expandState_of_not_mem hs]
    exact StateSet.mem_insert

/-- **The states expanded afterwards are those expanded before and those of the list.** -/
theorem mem_expanded_expand {states : List (Fin n)} {t : Fin n} :
    t ∈ (x.expand states).expanded ↔ t ∈ states ∨ t ∈ x.expanded := by
  induction states generalizing x with
  | nil => simp [expand]
  | cons s rest ih =>
    rw [expand, List.foldl_cons, ← expand, ih, mem_expanded_expandState, List.mem_cons]
    rw [or_left_comm, or_assoc]

theorem expand_append (states later : List (Fin n)) :
    x.expand (states ++ later) = (x.expand states).expand later :=
  List.foldl_append

/-! ## What is shown -/

/-- A shortened chain `y` in which exactly some states are expanded, and which is otherwise as `x` was, where
none was expanded. -/
structure Shows (y x : Shortcut α n) (m : Member α n) (p : Property α) (states : Fin n → Prop) : Prop where
  expanded : ∀ s, s ∈ y.expanded ↔ states s
  row_of_mem : ∀ s, states s → y.chain.row (lift s) = exactRow m.chain s
  row_of_not_mem : ∀ s, ¬ states s → y.chain.row (lift s) = x.chain.row (lift s)
  row_sinkFalse : y.chain.row (sinkFalse n) = [⟨sinkFalse n, 1⟩]
  row_sinkTrue : y.chain.row (sinkTrue n) = [⟨sinkTrue n, 1⟩]
  /-- There are rewards only if the property is about rewards. -/
  model : y.chain.reward.map (·.name) = p.formula.model?
  reward_of_mem : ∀ model, p.formula.model? = some model → ∀ s, states s →
    y.chain.rewardAt model (lift s) = m.chain.rewardAt model s
  reward_of_not_mem : ∀ model, p.formula.model? = some model → ∀ s, ¬ states s →
    y.chain.rewardAt model (lift s) = x.chain.rewardAt model (lift s)
  reward_sinkFalse : ∀ model, p.formula.model? = some model → y.chain.rewardAt model (sinkFalse n) = 0
  reward_sinkTrue : ∀ model, p.formula.model? = some model → y.chain.rewardAt model (sinkTrue n) = 0
  initial : y.chain.initial = lift m.chain.initial
  labelling : y.chain.labelling = x.chain.labelling
  property : y.property = p.withTarget targetLabel

/-- What a shortened chain shows when some states have been expanded. -/
theorem shows_expand (hx : ofMember m priors p = .ok x) {list : List (Fin n)} {states : Fin n → Prop}
    (listed : ∀ s, s ∈ list ↔ states s) : (x.expand list).Shows x m p states := by
  obtain ⟨target, first, none⟩ := shortens_of_ofMember hx
  have shortens := first.expand list
  have mem (s : Fin n) : s ∈ (x.expand list).expanded ↔ states s := by
    rw [mem_expanded_expand, none, ← listed]
    simp
  have outside (s : Fin n) : s ∉ x.expanded := by
    rw [none]
    exact StateSet.not_mem_empty
  constructor
  case expanded => exact mem
  case row_of_mem =>
    intro s hs
    rw [shortens.row_lift, if_pos ((mem s).mpr hs)]
  case row_of_not_mem =>
    intro s hs
    rw [shortens.row_lift, first.row_lift, if_neg fun h => hs ((mem s).mp h), if_neg (outside s)]
  case row_sinkFalse => exact shortens.row_sinkFalse
  case row_sinkTrue => exact shortens.row_sinkTrue
  case model => exact shortens.model
  case reward_of_mem =>
    intro model hm s hs
    rw [shortens.rewardAt_lift hm, if_pos ((mem s).mpr hs)]
  case reward_of_not_mem =>
    intro model hm s hs
    rw [shortens.rewardAt_lift hm, first.rewardAt_lift hm, if_neg fun h => hs ((mem s).mp h),
      if_neg (outside s)]
  case reward_sinkFalse => exact fun model hm => shortens.rewardAt_sinkFalse hm
  case reward_sinkTrue => exact fun model hm => shortens.rewardAt_sinkTrue hm
  case initial => exact shortens.initial
  case labelling => exact shortens.labelling.trans first.labelling.symm
  case property => exact shortens.property

end Shortcut

end HoleBlame
