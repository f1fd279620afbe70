import HoleBlame.Proofs.Batches

/-!
# Tighter bounds never cost more holes

A bound that is known in advance may be raised if the property bounds from above, and lowered if it
bounds from below (`Priors.Tightens`); a bound that is missing counts as the one that is trivially
right.  Whether the bounds are true of any chain plays no part in what follows.

A state that is not expanded moves to the one sink if its bound is below one, and to the other if it is
above zero (`Shortcut.Shortens.mem_successors_detour`).  Raising the bound can only add a way to the
sink that counts as target and take one to the other sink away.  So whatever is expanded, a state keeps
a positive chance, and a state that is sure of the target stays so
(`Shortcut.Shortens.positive_of_raised`, `Shortcut.Shortens.sure_of_raised`), and a shortened chain that
violates the property goes on violating it with tighter bounds
(`Shortcut.Shortens.violates_of_tightens`).  A search with tighter bounds therefore stops no later
(`Explanation.explain_tightens`).
-/

namespace HoleBlame

variable {α : Type} {n h : Nat}

/-- A table with the same targets whose bounds say at least as much against a property. -/
structure Priors.Tightens [Scalar α] (tight loose : Priors α) (p : Property α) : Prop where
  targets : ∀ q, tight.isTarget q = loose.isTarget q
  finite : ∀ q bound, tight.bound? q = some bound → Scalar.isFinite bound = true
  raises : p.isSafety = true → ∀ q, (loose.bound? q).getD 0 ≤ (tight.bound? q).getD 0
  lowers : p.isSafety = false → ∀ q, (tight.bound? q).getD 1 ≤ (loose.bound? q).getD 1

namespace Scalar.Ordered

variable [Scalar α] [Scalar.Ordered α] {x y z : α}

theorem lt_of_lt_of_le (h : x < y) (h' : y ≤ z) : x < z := by
  rcases Scalar.Ordered.le_iff.mp h' with lt | eq
  · exact Scalar.Ordered.lt_trans h lt
  · exact Scalar.Ordered.lt_of_lt_of_beq h eq

theorem lt_of_le_of_lt (h : x ≤ y) (h' : y < z) : x < z := by
  rcases Scalar.Ordered.le_iff.mp h with lt | eq
  · exact Scalar.Ordered.lt_trans lt h'
  · exact Scalar.Ordered.lt_of_beq_of_lt eq h'

/-- Moving a value into the unit interval does not make it positive. -/
theorem zero_lt_clampUnit : 0 < Scalar.clampUnit x ↔ 0 < x := by
  unfold Scalar.clampUnit
  split
  · next below =>
    constructor
    · intro h
      exact absurd h (Scalar.Ordered.lt_irrefl 0)
    · intro above
      exact absurd (Scalar.Ordered.lt_trans above below) (Scalar.Ordered.lt_irrefl 0)
  · split
    · next above =>
      have pos : (0 : α) < 1 := Scalar.Ordered.zero_lt_one
      exact iff_of_true pos (Scalar.Ordered.lt_trans pos above)
    · exact Iff.rfl

/-- Moving a value into the unit interval does not take it below one. -/
theorem clampUnit_lt_one : Scalar.clampUnit x < 1 ↔ x < 1 := by
  unfold Scalar.clampUnit
  split
  · next below =>
    have pos : (0 : α) < 1 := Scalar.Ordered.zero_lt_one
    exact iff_of_true pos (Scalar.Ordered.lt_trans below pos)
  · split
    · next above =>
      constructor
      · intro h
        exact absurd h (Scalar.Ordered.lt_irrefl 1)
      · intro below
        exact absurd (Scalar.Ordered.lt_trans above below) (Scalar.Ordered.lt_irrefl 1)
    · exact Iff.rfl

end Scalar.Ordered

namespace Shortcut

variable [Scalar α] {m : Member α n} {priors loose tight : Priors α} {p : Property α}
  {target : StateSet n} {x y : Shortcut α n} {s : Fin n}

/-! ## What bounds have to do with transitions -/

omit [Scalar α] in
theorem labelling_congr (same : ∀ q, tight.isTarget q = loose.isTarget q) :
    labelling m tight target = labelling m loose target := by
  have known : (fun s : Fin n => tight.isTarget (m.quotientState.get s)) =
      fun s => loose.isTarget (m.quotientState.get s) :=
    funext fun s => same _
  simp only [labelling, targets, known]

/-- The number that a bound on the probability of a state is taken from. -/
def stated (m : Member α n) (priors : Priors α) (safety : Bool) (s : Fin n) : α :=
  (priors.bound? (m.quotientState.get s)).getD (BoundKind.probability.trivial safety)

section Bounds

variable [Scalar.Ordered α]

theorem get_bounds_probability (m : Member α n) (priors : Priors α) (safety : Bool) (s : Fin n) :
    (0 < (bounds m priors .probability safety).get s ↔ 0 < stated m priors safety s) ∧
      ((bounds m priors .probability safety).get s < 1 ↔ stated m priors safety s < 1) := by
  have get : (bounds m priors .probability safety).get s =
      ((priors.bound? (m.quotientState.get s)).map Scalar.clampUnit).getD
        (BoundKind.probability.trivial safety) := by
    simp only [bounds, get_eq_getElem, Vector.getElem_map]
    rfl
  rw [get, stated]
  cases priors.bound? (m.quotientState.get s) with
  | none => exact ⟨Iff.rfl, Iff.rfl⟩
  | some bound => exact ⟨Scalar.Ordered.zero_lt_clampUnit, Scalar.Ordered.clampUnit_lt_one⟩

namespace Shortens

variable (hp : p.formula.kind = .probability) (hx : x.Shortens m priors p target)
include hp hx

/-- **Which ways a state has that is not expanded depends on whether its bound is below one and whether
it is above zero.** -/
theorem mem_successors_detour (hs : s ∉ x.expanded) {z : Fin (n + 2)} :
    z ∈ x.chain.successors (lift s) ↔
      z = sinkFalse n ∧ stated m priors p.isSafety s < 1 ∨
        z = sinkTrue n ∧ 0 < stated m priors p.isSafety s := by
  obtain ⟨pos, lt⟩ := get_bounds_probability m priors p.isSafety s
  rw [Chain.successors, hx.row_lift, if_neg hs, hp, ← pos, ← lt, detour]
  split <;> split <;> simp_all

end Shortens

end Bounds

/-! ## Raising bounds -/

namespace Shortens

variable [Scalar.Ordered α] (hp : p.formula.kind = .probability)
  (hx : x.Shortens m loose p target) (hy : y.Shortens m tight p target)
  (targets : ∀ q, tight.isTarget q = loose.isTarget q)
  (same : ∀ s, s ∈ x.expanded ↔ s ∈ y.expanded)

omit [Scalar.Ordered α] in
include hx hy targets in
theorem goal_congr : y.goal = x.goal := by
  rw [goal, goal, hx.property, hx.labelling, hy.property, hy.labelling, labelling_congr targets]

omit [Scalar.Ordered α] in
include hx hy same in
/-- Where it is expanded, a chain has the same transitions whatever the bounds. -/
theorem successors_congr (hs : s ∈ x.expanded) :
    y.chain.successors (lift s) = x.chain.successors (lift s) := by
  rw [Chain.successors, Chain.successors, hx.row_lift, hy.row_lift, if_pos hs,
    if_pos ((same s).mp hs)]

variable (raised : ∀ s, stated m loose p.isSafety s ≤ stated m tight p.isSafety s)
include hp hx hy targets same raised

/-- **Raising bounds leaves no state without a chance.** -/
theorem positive_of_raised {z : Fin (n + 2)} (hz : x.chain.Positive x.goal z) :
    y.chain.Positive y.goal z := by
  rw [goal_congr hx hy targets]
  obtain ⟨t, ht, path⟩ := hz
  refine path.headInduction (.of_target ht) ?_
  intro u v hu huv _ hv
  rcases lift_or_sink u with ⟨s, rfl⟩ | rfl | rfl
  · by_cases hs : s ∈ x.expanded
    · rw [← successors_congr hx hy same hs] at huv
      exact .of_successor hu huv hv
    · have hs' : s ∉ y.expanded := fun hs' => hs ((same s).mpr hs')
      rcases (hx.mem_successors_detour hp hs).mp huv with ⟨rfl, -⟩ | ⟨rfl, pos⟩
      · -- From here the target is out of reach, so no path to it leads this way.
        rw [← goal_congr hx hy targets] at hv
        exact absurd hv hy.not_positive_sinkFalse
      · refine .of_successor hu ((hy.mem_successors_detour hp hs').mpr (.inr ⟨rfl, ?_⟩)) hv
        exact Scalar.Ordered.lt_of_lt_of_le pos (raised s)
  · rw [hx.successors_sinkFalse] at huv
    rw [List.mem_singleton.mp huv] at hv
    exact hv
  · exact .of_target hx.target_sinkTrue

/-- **Raising bounds leaves every state sure that was sure.** -/
theorem sure_of_raised {z : Fin (n + 2)} (hz : x.chain.Sure x.goal z) : y.chain.Sure y.goal z := by
  have positive {u : Fin (n + 2)} (hu : x.chain.Positive x.goal u) : y.chain.Positive y.goal u :=
    positive_of_raised hp hx hy targets same raised hu
  intro t path
  rw [goal_congr hx hy targets] at path
  -- The path leads through states that are sure with the looser bounds.
  refine positive (Chain.Sure.positive ?_)
  refine path.tailInduction (motive := fun u => x.chain.Sure x.goal u) hz ?_
  intro u v _ hu huv hsure
  rcases lift_or_sink u with ⟨s, rfl⟩ | rfl | rfl
  · by_cases hs : s ∈ x.expanded
    · rw [successors_congr hx hy same hs] at huv
      exact hsure.successor hu.2 huv
    · have hs' : s ∉ y.expanded := fun hs' => hs ((same s).mpr hs')
      rcases (hy.mem_successors_detour hp hs').mp huv with ⟨rfl, lt⟩ | ⟨rfl, -⟩
      · refine hsure.successor hu.2 ((hx.mem_successors_detour hp hs).mpr (.inl ⟨rfl, ?_⟩))
        exact Scalar.Ordered.lt_of_le_of_lt (raised s) lt
      · exact .of_target hx.target_sinkTrue
  · rw [hy.successors_sinkFalse] at huv
    rw [List.mem_singleton.mp huv]
    exact hsure
  · exact absurd hx.target_sinkTrue hu.2

end Shortens

/-! ## Tighter bounds -/

theorem stated_le_of_tightens (tighter : tight.Tightens loose p) :
    (p.isSafety = true → ∀ s, stated m loose p.isSafety s ≤ stated m tight p.isSafety s) ∧
      (p.isSafety = false → ∀ s, stated m tight p.isSafety s ≤ stated m loose p.isSafety s) := by
  constructor
  · intro safety s
    rw [safety]
    exact tighter.raises safety (m.quotientState.get s)
  · intro liveness s
    rw [liveness]
    exact tighter.lowers liveness (m.quotientState.get s)

/-- **A shortened chain that violates a property goes on violating it with tighter bounds.** -/
theorem Shortens.violates_of_tightens [Scalar.Ordered α] {k : Checker α}
    (hx : x.Shortens m loose p target) (hy : y.Shortens m tight p target)
    (known : p.formula.Known m.chain.labelling) (extreme : p.Extreme)
    (tighter : tight.Tightens loose p) (same : ∀ s, s ∈ x.expanded ↔ s ∈ y.expanded)
    (hv : k.Violates x.chain x.property) : k.Violates y.chain y.property := by
  obtain ⟨raised, lowered⟩ := stated_le_of_tightens (m := m) tighter
  have hp := extreme.1
  obtain ⟨formula, b⟩ := p
  cases formula with
  | reward model label => cases hp
  | probability constraint label =>
    rw [hx.violates_iff known extreme.2, ← Bool.not_eq_true] at hv
    rw [hy.violates_iff known extreme.2, ← Bool.not_eq_true]
    cases hb : b.comparison.isUpper with
    | true =>
      have positive := positive_of_raised hp hx hy tighter.targets same (raised hb)
        (z := lift m.chain.initial)
      have mono := Chain.holds_chance b positive
        (sure_of_raised hp hx hy tighter.targets same (raised hb))
      intro holds
      exact hv (mono.1 hb holds)
    | false =>
      have targets (q : Nat) := (tighter.targets q).symm
      have same (s : Fin n) := (same s).symm
      have positive := positive_of_raised hp hy hx targets same (lowered hb)
        (z := lift m.chain.initial)
      have mono := Chain.holds_chance b positive
        (sure_of_raised hp hy hx targets same (lowered hb))
      intro holds
      exact hv (mono.2 hb holds)

end Shortcut

namespace Explanation

variable {m : Member Float n} {table : HoleTable h} {k : Checker Float} {o : SearchOptions}
  {p : Property Float} {loose tight : Priors Float}

/-- **Tighter bounds never cost more holes.**  If the threshold of a probability is zero or one, a member
that is explained with some bounds is explained with tighter ones, after the same wave or an earlier one,
and by no other holes. -/
theorem explain_tightens {e : Explanation h} (tighter : tight.Tightens loose p) (extreme : p.Extreme)
    (he : explain k o ⟨m, table, loose⟩ p = .ok e) :
    ∃ e', explain k o ⟨m, table, tight⟩ p = .ok e' ∧ e'.stoppingWave ≤ e.stoppingWave ∧
      ∀ y ∈ e'.criticalHoles, y ∈ e.criticalHoles := by
  obtain ⟨w, x, hw, hx⟩ := exists_of_explain_ok he
  obtain ⟨known, model⟩ := Shortcut.known_of_ofMember hx
  have accepted (q : Nat) (bound : Float) (hq : tight.bound? q = some bound) :
      p.formula.kind.accepts bound = true := by
    rw [extreme.1]
    exact tighter.finite q bound hq
  obtain ⟨y, hy⟩ := Shortcut.exists_ofMember known model accepted
  obtain ⟨target, shortens, fresh⟩ := Shortcut.shortens_of_ofMember hx
  obtain ⟨target', shortens', fresh'⟩ := Shortcut.shortens_of_ofMember hy
  obtain rfl : target = target' :=
    Option.some.inj (shortens.target_eq.symm.trans shortens'.target_eq)
  obtain ⟨stop, stops, rfl⟩ := (consult_eq_ok hw hx (answers_expand (k := k) hx extreme)).mp he
  -- With the same states expanded, the tighter bounds make the checker reject as well.
  have rejects : RejectsAt (answerOf k) y w.states stop := by
    apply rejects_answerOf_iff.mpr
    refine (shortens.expand _).violates_of_tightens (shortens'.expand _) known extreme tighter ?_
      (rejects_answerOf_iff.mp stops.stops)
    intro s
    rw [Shortcut.mem_expanded_expand, Shortcut.mem_expanded_expand, fresh, fresh']
  obtain ⟨first, le, stops'⟩ := StopsAt.exists_le stops.lt stops.asked rejects
  have hw' : Waves.ofAnnotated (⟨m, table, tight⟩ : Annotated Float n h) = .ok w := hw
  have explained := (consult_eq_ok hw' hy (answers_expand (k := k) hy extreme)).mpr
    ⟨first, stops', rfl⟩
  exact ⟨_, explained, le, fun _ => Waves.criticalHoles_mono le⟩

/-- It is known of the upper way of the fork that it may end badly. -/
def warning : Priors Float :=
  ⟨#[⟨none, false⟩, ⟨some 0.5, false⟩]⟩

theorem warning_tightens :
    warning.Tightens .unknown ⟨.probability none "bad", ⟨.lessEqual, 0⟩⟩ where
  targets q := by
    rw [Priors.isTarget_unknown]
    match q with
    | 0 | 1 | q + 2 => rfl
  finite q bound hq := by
    match q with
    | 0 | q + 2 => cases hq
    | 1 =>
      obtain rfl := Option.some.inj hq
      decide +kernel
  raises _ q := by
    rw [Priors.bound?_unknown]
    match q with
    | 0 | q + 2 =>
      show (0 : Float) ≤ 0
      decide +kernel
    | 1 =>
      show (0 : Float) ≤ 0.5
      decide +kernel
  lowers liveness := by cases liveness

/-- With the warning the fork is explained before any hole is revealed. -/
theorem explain_tightens_fork :
    explain .standard ⟨1, .fail, by decide⟩ fork ⟨.probability none "bad", ⟨.lessEqual, 0⟩⟩
        = .ok ⟨.ofList [0], 1, 3, 2, false⟩ ∧
      explain .standard ⟨1, .fail, by decide⟩ ⟨fork.member, fork.table, warning⟩
        ⟨.probability none "bad", ⟨.lessEqual, 0⟩⟩ = .ok ⟨.empty 2, 0, 3, 1, false⟩ ∧
      0 ≤ 1 ∧ ∀ y ∈ HoleSet.empty 2, y ∈ HoleSet.ofList [(0 : Fin 2)] := by
  have loose : explain .standard ⟨1, .fail, by decide⟩ fork
      ⟨.probability none "bad", ⟨.lessEqual, 0⟩⟩ = .ok ⟨.ofList [0], 1, 3, 2, false⟩ :=
    eq_ok_of_toOption (by decide +kernel)
  have tight : explain .standard ⟨1, .fail, by decide⟩ ⟨fork.member, fork.table, warning⟩
      ⟨.probability none "bad", ⟨.lessEqual, 0⟩⟩ = .ok ⟨.empty 2, 0, 3, 1, false⟩ :=
    eq_ok_of_toOption (by decide +kernel)
  obtain ⟨e, he, le, sub⟩ := explain_tightens (m := fork.member) warning_tightens
    ⟨rfl, by decide +kernel⟩ loose
  obtain rfl := Except.ok.inj (tight.symm.trans he)
  exact ⟨loose, tight, le, sub⟩

end Explanation

end HoleBlame
