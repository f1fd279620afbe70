import HoleBlame.Proofs.Exploration

/-!
# The waves of a member

The waves of a member list its reachable states, each once, and the waves up to any one list exactly what
can be reached along states whose holes are revealed by then.  So a hole is revealed at some wave iff a
reachable state depends on it.

These are the properties of an exploration that has ended, seen through `Waves.ofAnnotated`.
-/

namespace HoleBlame

variable {α : Type} {n h : Nat}

namespace Waves

open Exploration (Open Reveals)

variable {c : Chain α n} {holes : Fin n → HoleSet h} {a : Annotated α n h} {w : Waves n h}
  {s : Fin n}

theorem ofAnnotated_eq_ok : ofAnnotated a = .ok w ↔
    (∀ s, a.member.choice.get s < a.table.numChoices) ∧ w = explore a.member.chain a.holes := by
  unfold ofAnnotated
  split
  · next s hs =>
    have := List.find?_some hs
    simp only [decide_eq_true_eq] at this
    constructor
    · intro e
      cases e
    · rintro ⟨hall, -⟩
      exact absurd (hall s) (Nat.not_lt.mpr this)
  · next hs =>
    have hall (s : Fin n) := List.find?_eq_none.mp hs s (List.mem_finRange s)
    simp only [decide_eq_true_eq, Nat.not_le] at hall
    constructor
    · intro e
      cases e
      exact ⟨hall, rfl⟩
    · rintro ⟨-, rfl⟩
      rfl

/-! ## An exploration that has ended -/

/-- The end of the exploration that the waves are read off. -/
def finalMoment (c : Chain α n) (holes : Fin n → HoleSet h) : Exploration n h :=
  (Exploration.start holes c.initial).run c.successors holes

theorem states_explore : (explore c holes).states = (finalMoment c holes).waves := rfl

theorem revealed_explore : (explore c holes).revealed = (finalMoment c holes).revealed := rfl

theorem invariant_finalMoment : Exploration.Invariant c holes (finalMoment c holes) :=
  Exploration.invariant_start.run

theorem roster_finalMoment :
    (finalMoment c holes).roster = (explore c holes).states.flatten := by
  rw [Exploration.roster, finalMoment, Exploration.run_stack, Exploration.run_waiting]
  rfl

theorem nodup_explore : (explore c holes).states.flatten.Nodup := by
  rw [← roster_finalMoment]
  exact invariant_finalMoment.nodup

/-- **The waves up to any one are what open states lead to.** -/
theorem mem_take_explore {k : Nat} : s ∈ ((explore c holes).states.take (k + 1)).flatten ↔
    Reveals c holes (explore c holes).revealed k s := by
  have inv : Exploration.Invariant c holes (finalMoment c holes) := invariant_finalMoment
  rw [states_explore, revealed_explore]
  rcases Nat.lt_or_ge k (finalMoment c holes).finished.length with hk | hk
  · exact inv.past k hk s
  · -- From the last wave on, all holes that are ever revealed are revealed.
    have all : (finalMoment c holes).waves.take (k + 1) = (finalMoment c holes).waves :=
      List.take_of_length_le (by rw [Exploration.length_waves]; omega)
    have same (s : Fin n) : Open holes (finalMoment c holes).revealed
        (finalMoment c holes).finished.length s ↔ Open holes (finalMoment c holes).revealed k s := by
      refine ⟨fun ho => ho.mono hk, fun ho y hy => ?_⟩
      obtain ⟨j, hj, _⟩ := ho y hy
      exact ⟨j, hj, inv.wave_le y j hj⟩
    rw [all, ← Reveals.congr same]
    exact inv.mem_explored_iff Exploration.run_stack

/-- **All waves together are the reachable states.** -/
theorem mem_flatten_explore :
    s ∈ (explore c holes).states.flatten ↔ s ∈ Graph.reachable c := by
  have inv : Exploration.Invariant c holes (finalMoment c holes) := invariant_finalMoment
  rw [Graph.mem_reachable]
  constructor
  · intro hs
    exact (inv.reveals s hs).1.mono fun _ _ => trivial
  · intro path
    -- By induction on the path: what is found in the end has been explored, so its successors are found.
    rw [← roster_finalMoment, ← inv.mem_found]
    refine path.tailInduction (motive := fun s => s ∈ (finalMoment c holes).found) inv.initial ?_
    intro r s _ _ hrs hr
    rw [inv.mem_found, roster_finalMoment] at hr
    exact inv.closed r hr s hrs

/-- **A hole is revealed iff a reachable state depends on it.** -/
theorem isSome_revealed_explore {y : Fin h} : ((explore c holes).revealed.get y).isSome = true ↔
    ∃ s ∈ Graph.reachable c, y ∈ holes s := by
  have inv : Exploration.Invariant c holes (finalMoment c holes) := invariant_finalMoment
  rw [revealed_explore]
  constructor
  · intro hy
    obtain ⟨j, hj⟩ := Option.isSome_iff_exists.mp hy
    obtain ⟨s, hs, hmem | ⟨-, hmem⟩⟩ := inv.revealed_by y j hj
    · obtain ⟨wave, hwave, hs'⟩ := List.mem_flatten.mp hmem
      have : s ∈ (explore c holes).states.flatten :=
        List.mem_flatten.mpr ⟨wave, List.mem_of_mem_take hwave, hs'⟩
      exact ⟨s, mem_flatten_explore.mp this, hs⟩
    · rw [finalMoment, Exploration.run_stack] at hmem
      cases hmem
  · rintro ⟨s, hs, hy⟩
    obtain ⟨j, hj, _⟩ := (inv.reveals s (mem_flatten_explore.mpr hs)).2 y hy
    rw [hj]
    rfl

/-! ## The waves of a member -/

theorem states_ne_nil (hw : ofAnnotated a = .ok w) : w.states ≠ [] := by
  obtain ⟨-, rfl⟩ := ofAnnotated_eq_ok.mp hw
  simp [explore, ofExploration]

theorem mem_flatten_of_ofAnnotated (hw : ofAnnotated a = .ok w) :
    s ∈ w.states.flatten ↔ s ∈ Graph.reachable a.member.chain := by
  obtain ⟨-, rfl⟩ := ofAnnotated_eq_ok.mp hw
  exact mem_flatten_explore

/-- States that are explored up to a wave depend on holes that are critical at the wave. -/
theorem mem_criticalHoles_of_ofAnnotated (hw : ofAnnotated a = .ok w) {wave : Nat}
    (hs : s ∈ (w.states.take (wave + 1)).flatten) {y : Fin h} (hy : y ∈ a.holes s) :
    y ∈ w.criticalHoles wave := by
  obtain ⟨-, rfl⟩ := ofAnnotated_eq_ok.mp hw
  obtain ⟨-, hopen⟩ := mem_take_explore.mp hs
  obtain ⟨j, hj, hle⟩ := hopen y hy
  rw [criticalHoles, HoleSet.mem_ofFn, hj]
  simpa using hle

/-- Waves partition the reachable states of a member by what has to be revealed to get to them. -/
structure Partitions (w : Waves n h) (a : Annotated α n h) : Prop where
  /-- The waves up to any one contain the states that open states lead to. -/
  upTo : ∀ k s, s ∈ (w.states.take (k + 1)).flatten ↔
    Reveals a.member.chain a.holes w.revealed k s
  /-- While the initial state is blocked, they contain none. -/
  blocked : ∀ k, ¬ Open a.holes w.revealed k a.member.chain.initial →
    (w.states.take (k + 1)).flatten = []
  /-- No state occurs twice. -/
  nodup : w.states.flatten.Nodup
  /-- All waves together contain the reachable states. -/
  reachable : ∀ s, s ∈ w.states.flatten ↔ s ∈ Graph.reachable a.member.chain
  /-- A hole is revealed at some wave iff some reachable state depends on it. -/
  revealed : ∀ y, (w.revealed.get y).isSome = true ↔
    ∃ s ∈ Graph.reachable a.member.chain, y ∈ a.holes s

/-- **The waves of a member partition its reachable states.** -/
theorem partitions_of_ofAnnotated (e : ofAnnotated a = .ok w) : w.Partitions a := by
  obtain ⟨-, rfl⟩ := ofAnnotated_eq_ok.mp e
  refine ⟨fun k s => mem_take_explore, ?_, nodup_explore, fun s => mem_flatten_explore,
    fun y => isSome_revealed_explore⟩
  intro k hblocked
  rw [List.eq_nil_iff_forall_not_mem]
  intro s hs
  obtain ⟨path, ho⟩ := mem_take_explore.mp hs
  rcases path.cases_head with rfl | ⟨ho', -⟩
  · exact hblocked ho
  · exact hblocked ho'

/-- A diamond of four states: the upper way depends on the holes 0 and 1, the lower one on hole 1 only,
and the end on hole 2.  Nothing depends on hole 3. -/
def diamond : Annotated Float 4 4 where
  member := .identity
    { initial := 0
      rows := #v[[⟨1, 0.5⟩, ⟨2, 0.5⟩], [⟨3, 1⟩], [⟨3, 1⟩], [⟨3, 1⟩]]
      labelling := (Labelling.empty 4).set "end" (.ofList [3])
      reward := none }
  table := .ofSets [.empty 4, .ofList [0, 1], .ofList [1], .ofList [2]]
  priors := .unknown

/-- The lower way is cheaper, so its hole is revealed first. -/
theorem partitions_diamond :
    ∃ w, ofAnnotated diamond = .ok w ∧ w.states = [[0], [2], [1], [3]] ∧ w.Partitions diamond := by
  have e : ofAnnotated diamond = .ok (explore diamond.member.chain diamond.holes) :=
    ofAnnotated_eq_ok.mpr ⟨by decide, rfl⟩
  exact ⟨_, e, by decide +kernel, partitions_of_ofAnnotated e⟩

end Waves

end HoleBlame
