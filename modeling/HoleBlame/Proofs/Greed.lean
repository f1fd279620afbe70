import HoleBlame.Proofs.Discovery
import HoleBlame.Proofs.Revelation

/-!
# Waves are greedy and few

A wave is opened when everything that could be explored has been explored.  It reveals the hidden holes of
one state on the frontier, one with the fewest of them, and of several such states the one that was met
first (`Waves.Opens`).  This is said of a wave by what was explored and revealed before it, so it cannot
change afterwards (`Waves.Opens.congr`), and every step of an exploration preserves it
(`Exploration.Greedy.step`).

The state for which a wave is opened is explored in that very wave.  It had a hidden hole before, so every
wave but the first reveals a hole, and there is at most one wave more than there are holes that any reachable
state depends on (`Waves.greedy_of_ofAnnotated`).
-/

namespace HoleBlame

variable {α : Type} {n h : Nat}

/-- The holes that some reachable state depends on. -/
def Annotated.relevantHoles (a : Annotated α n h) : HoleSet h :=
  .ofFn fun y => (Graph.reachable a.member.chain).toList.any fun s => y ∈ a.holes s

theorem Annotated.mem_relevantHoles {a : Annotated α n h} {y : Fin h} :
    y ∈ a.relevantHoles ↔ ∃ s ∈ Graph.reachable a.member.chain, y ∈ a.holes s := by
  simp [relevantHoles]

namespace Waves

/-- The states that are explored up to a wave, in the order of their exploration. -/
def upTo (w : Waves n h) (wave : Nat) : List (Fin n) :=
  (w.states.take (wave + 1)).flatten

/-- How many holes of a state are not revealed up to a wave. -/
def cost (w : Waves n h) (holes : Fin n → HoleSet h) (wave : Nat) (s : Fin n) : Nat :=
  (holes s).toList.countP fun y => y ∉ w.criticalHoles wave

/-- The wave that comes next is opened for the state: it is on the frontier, no other state there would cost
fewer holes, it is met before any other that would cost no more, and exactly the holes that it costs are
revealed. -/
structure Opens (w : Waves n h) (c : Chain α n) (holes : Fin n → HoleSet h) (wave : Nat)
    (s : Fin n) : Prop where
  frontier : c.Frontier (w.upTo wave) s
  fewest : ∀ t, c.Frontier (w.upTo wave) t → w.cost holes wave s ≤ w.cost holes wave t
  first : ∀ t, c.Frontier (w.upTo wave) t → w.cost holes wave t = w.cost holes wave s →
    ((w.upTo wave).flatMap c.successors).idxOf s ≤ ((w.upTo wave).flatMap c.successors).idxOf t
  reveals : ∀ y, y ∈ w.revealedAt (wave + 1) ↔ y ∈ holes s ∧ y ∉ w.criticalHoles wave

variable {c : Chain α n} {holes : Fin n → HoleSet h} {a : Annotated α n h} {w w' : Waves n h}
  {s : Fin n} {y : Fin h} {j k : Nat}

theorem mem_revealedAt : y ∈ w.revealedAt k ↔ w.revealed.get y = some k := by
  simp [revealedAt]

/-- For which state a wave is opened depends on what has happened up to that wave alone. -/
theorem Opens.congr (opens : w.Opens c holes k s)
    (explored : w'.states.take (k + 1) = w.states.take (k + 1))
    (revealed : ∀ y, ∀ j ≤ k + 1, w'.revealed.get y = some j ↔ w.revealed.get y = some j) :
    w'.Opens c holes k s := by
  have upTo_eq : w'.upTo k = w.upTo k := by rw [upTo, explored, upTo]
  have critical : w'.criticalHoles k = w.criticalHoles k := by
    refine HoleSet.ext fun y => ?_
    rw [mem_criticalHoles, mem_criticalHoles]
    exact exists_congr fun j => and_congr_right fun hj => revealed y j (Nat.le_succ_of_le hj)
  have cost_eq (t : Fin n) : w'.cost holes k t = w.cost holes k t := by rw [cost, critical, cost]
  constructor
  · rw [upTo_eq]
    exact opens.frontier
  · simp only [upTo_eq, cost_eq]
    exact opens.fewest
  · simp only [upTo_eq, cost_eq]
    exact opens.first
  · intro y
    rw [critical, ← opens.reveals y, mem_revealedAt, mem_revealedAt]
    exact revealed y (k + 1) (Nat.le_refl _)

end Waves

namespace Exploration

open Waves (ofExploration Opens)

variable {c : Chain α n} {holes : Fin n → HoleSet h} {x y : Exploration n h} {s : Fin n}
  {stack : List (Fin n)}

/-! ## Opening a wave -/

section OpenWave

variable (inv : Invariant c holes x) (hs : x.stack = [])
include inv

/-- The holes that a new wave does not reveal have been revealed before, or stay hidden. -/
theorem Invariant.mem_criticalHoles_openWave {hole : Fin h} :
    hole ∈ (ofExploration (x.openWave holes s)).criticalHoles x.finished.length ↔
      (x.revealed.get hole).isSome = true := by
  rw [Waves.mem_criticalHoles, Option.isSome_iff_exists]
  show (∃ j ≤ _, (reveal (x.finished.length + 1) (holes s) x.revealed).get hole = some j) ↔ _
  rw [get_reveal]
  constructor
  · rintro ⟨j, hj, revealed⟩
    split at revealed
    · cases revealed
      exact absurd hj (Nat.not_succ_le_self _)
    · exact ⟨j, revealed⟩
  · rintro ⟨j, hj⟩
    refine ⟨j, inv.wave_le hole j hj, ?_⟩
    rw [if_neg (fun none => by simp [hj] at none), hj]

include hs

/-- **A wave is opened for the right state.** -/
theorem Invariant.opens_openWave (ordered : InOrder c x) (hc : x.candidate? = some s) :
    (ofExploration (x.openWave holes s)).Opens c holes x.finished.length s := by
  obtain ⟨-, least, -⟩ := List.argmin_eq_some_iff.mp (inv.candidate?_eq ▸ hc)
  have explored : (ofExploration (x.openWave holes s)).upTo x.finished.length = x.explored := by
    show ((x.openWave holes s).waves.take (x.finished.length + 1)).flatten = _
    rw [waves_openWave, ← length_waves, List.take_left]
    rfl
  have cost (t : Fin n) : (ofExploration (x.openWave holes s)).cost holes x.finished.length t =
      hidden x.revealed (holes t) := by
    refine List.countP_congr fun hole _ => ?_
    simp [inv.mem_criticalHoles_openWave]
  have frontier (t : Fin n) : c.Frontier x.explored t ↔ t ∈ x.waiting :=
    (inv.mem_waiting_iff hs).symm
  constructor
  case frontier =>
    rw [explored, frontier]
    exact mem_waiting_of_candidate? hc
  case fewest =>
    intro t ht
    rw [explored, frontier] at ht
    rw [cost, cost]
    exact least t ht
  case first =>
    intro t ht same
    rw [explored] at ht ⊢
    rw [cost, cost] at same
    have met_le := ordered.idxOf_candidate_le inv hc ((frontier t).mp ht) same
    by_cases outside : c.initial ∈ x.explored
    · have other {t : Fin n} (ht : c.Frontier x.explored t) : c.initial ≠ t := by
        rintro rfl
        exact ht.1 outside
      have hs := (frontier s).mpr (mem_waiting_of_candidate? hc)
      rw [met, List.idxOf_cons_ne _ (other hs), List.idxOf_cons_ne _ (other ht)] at met_le
      exact Nat.le_of_succ_le_succ met_le
    · rw [inv.explored_eq_nil hs outside]
      exact Nat.le_refl _
  case reveals =>
    intro hole
    rw [inv.mem_criticalHoles_openWave, Waves.mem_revealedAt]
    show (reveal (x.finished.length + 1) (holes s) x.revealed).get hole = _ ↔ _
    rw [get_reveal, Option.not_isSome_iff_eq_none, and_comm (a := hole ∈ holes s)]
    split
    · next hidden => simp [hidden]
    · next shown =>
      constructor
      · intro late
        exact absurd (inv.wave_le hole _ late) (Nat.not_succ_le_self _)
      · intro hidden
        exact absurd hidden shown

end OpenWave

/-! ## All waves that have been opened -/

/-- Every wave that has been opened was opened for the right state, which has been explored in it or is
going to be. -/
def Greedy (c : Chain α n) (holes : Fin n → HoleSet h) (x : Exploration n h) : Prop :=
  ∀ k < x.finished.length, ∃ s, (ofExploration x).Opens c holes k s ∧
    ((∃ wave, x.waves[k + 1]? = some wave ∧ s ∈ wave) ∨ k + 1 = x.finished.length ∧ s ∈ x.stack)

theorem Greedy.visit (greedy : Greedy c holes x) (hs : x.stack = s :: stack) :
    Greedy c holes (x.visit c.successors holes s stack) := by
  intro k hk
  have hk : k + 1 ≤ x.finished.reverse.length := by
    rw [List.length_reverse]
    exact hk
  obtain ⟨r, opens, place⟩ := greedy k (by rwa [List.length_reverse] at hk)
  refine ⟨r, opens.congr ?_ fun _ _ _ => Iff.rfl, ?_⟩
  · show (x.visit c.successors holes s stack).waves.take (k + 1) = x.waves.take (k + 1)
    rw [waves_visit, waves_eq, List.take_append_of_le_length hk, List.take_append_of_le_length hk]
  · rw [waves_visit]
    rw [waves_eq] at place
    rcases place with ⟨wave, hw, hr⟩ | ⟨last, hr⟩
    · rcases Nat.lt_or_eq_of_le hk with earlier | last
      · rw [List.getElem?_append_left earlier] at hw ⊢
        exact .inl ⟨wave, hw, hr⟩
      · rw [last, List.getElem?_concat_length] at hw ⊢
        cases hw
        exact .inl ⟨_, rfl, List.mem_append_left _ hr⟩
    · rw [hs] at hr
      rcases List.mem_cons.mp hr with rfl | hr
      · rw [last, ← List.length_reverse, List.getElem?_concat_length]
        exact .inl ⟨_, rfl, by simp⟩
      · exact .inr ⟨last, List.mem_append_right _ hr⟩

theorem Greedy.openWave (greedy : Greedy c holes x) (inv : Invariant c holes x)
    (ordered : InOrder c x) (hs : x.stack = []) (hc : x.candidate? = some s) :
    Greedy c holes (x.openWave holes s) := by
  intro k hk
  rcases Nat.lt_succ_iff_lt_or_eq.mp hk with earlier | rfl
  · obtain ⟨r, opens, place⟩ := greedy k earlier
    have inside : k + 1 < x.waves.length := by
      rw [length_waves]
      exact Nat.succ_lt_succ earlier
    refine ⟨r, opens.congr ?_ fun hole j hj => ?_, ?_⟩
    · show (x.openWave holes s).waves.take (k + 1) = x.waves.take (k + 1)
      rw [waves_openWave, List.take_append_of_le_length inside.le]
    · -- The new wave comes later.
      show (reveal (x.finished.length + 1) (holes s) x.revealed).get hole = some j ↔ _
      rw [get_reveal]
      split
      · next hidden =>
        show some (x.finished.length + 1) = some j ↔ x.revealed.get hole = some j
        simp only [hidden.1, Option.some.injEq, reduceCtorEq, iff_false]
        omega
      · exact Iff.rfl
    · rw [waves_openWave, List.getElem?_append_left inside]
      rcases place with inWave | ⟨-, waiting⟩
      · exact .inl inWave
      · rw [hs] at waiting
        cases waiting
  · refine ⟨s, inv.opens_openWave hs ordered hc, .inr ⟨rfl, ?_⟩⟩
    have free : isFree holes (x.openWave holes s).revealed s = true :=
      beq_iff_eq.mpr (hidden_reveal _ _ _)
    rw [stack_openWave]
    exact List.mem_reverse.mpr (List.mem_filter.mpr ⟨mem_waiting_of_candidate? hc, free⟩)

/-- **Every step keeps it that way.** -/
theorem Greedy.step (greedy : Greedy c holes x) (inv : Invariant c holes x) (ordered : InOrder c x)
    (e : x.step? c.successors holes = some y) : Greedy c holes y := by
  rcases step?_eq_some e with ⟨s, stack, hs, rfl⟩ | ⟨hs, s, hc, rfl⟩
  · exact greedy.visit hs
  · exact greedy.openWave inv ordered hs hc

/-- **When the search ends, every wave was opened for the right state.** -/
theorem greedy_run (inv : Invariant c holes x) (ordered : InOrder c x) (greedy : Greedy c holes x) :
    Greedy c holes (x.run c.successors holes) := by
  have all := run_induction (motive := fun x => Invariant c holes x ∧ InOrder c x ∧ Greedy c holes x)
    (fun ⟨inv, ordered, greedy⟩ e => ⟨inv.step e, ordered.step e, greedy.step inv ordered e⟩)
    ⟨inv, ordered, greedy⟩
  exact all.2.2

end Exploration

namespace Waves

variable {c : Chain α n} {holes : Fin n → HoleSet h} {a : Annotated α n h} {w : Waves n h}
  {s : Fin n} {y : Fin h} {j k : Nat}

/-! ## The waves of a member -/

/-- Every wave but the first is opened for the right state, which is explored in it. -/
theorem exists_opens_explore (hk : k < (explore c holes).last) :
    ∃ s, (explore c holes).Opens c holes k s ∧
      ∃ wave, (explore c holes).states[k + 1]? = some wave ∧ s ∈ wave := by
  have greedy : Exploration.Greedy c holes (finalMoment c holes) :=
    Exploration.greedy_run Exploration.invariant_start Exploration.inOrder_start
      fun k hk => absurd hk (Nat.not_lt_zero k)
  have earlier : k < (finalMoment c holes).finished.length := by
    rwa [last, count, states_explore, Exploration.length_waves, Nat.add_sub_cancel] at hk
  obtain ⟨s, opens, explored | ⟨-, waiting⟩⟩ := greedy k earlier
  · exact ⟨s, opens, explored⟩
  · rw [finalMoment, Exploration.run_stack] at waiting
    cases waiting

/-- A state on the frontier depends on a hole that has not been revealed. -/
theorem exists_hidden_of_frontier (hw : ofAnnotated a = .ok w)
    (hs : a.member.chain.Frontier (w.upTo k) s) : ∃ y ∈ a.holes s, y ∉ w.criticalHoles k := by
  obtain ⟨-, rfl⟩ := ofAnnotated_eq_ok.mp hw
  obtain ⟨outside, origin⟩ := hs
  by_contra none
  push Not at none
  -- If all its holes had been revealed, the state would have been explored.
  have ho : Exploration.Open a.holes (explore a.member.chain a.holes).revealed k s := by
    intro y hy
    obtain ⟨j, hj, revealed⟩ := mem_criticalHoles.mp (none y hy)
    exact ⟨j, revealed, hj⟩
  apply outside
  rw [upTo, mem_take_explore]
  rcases origin with rfl | ⟨r, hr, hrs⟩
  · exact .initial ho
  · rw [upTo, mem_take_explore] at hr
    exact hr.successor hrs ho

/-- The waves of a member are greedy, and there are few of them. -/
structure Greedy (w : Waves n h) (a : Annotated α n h) : Prop where
  /-- Every wave but the first is opened for the first of the cheapest states on the frontier, which is
  explored in it. -/
  opens : ∀ k < w.last, ∃ s, w.Opens a.member.chain a.holes k s ∧
    ∃ wave, w.states[k + 1]? = some wave ∧ s ∈ wave
  /-- It reveals a hole. -/
  reveals : ∀ k < w.last, ∃ y, y ∈ w.revealedAt (k + 1)
  /-- No hole is revealed twice. -/
  once : ∀ y j k, y ∈ w.revealedAt j → y ∈ w.revealedAt k → j = k
  /-- There is at most one wave more than there are holes of reachable states. -/
  few : w.count ≤ 1 + a.relevantHoles.toList.length
  /-- After the last wave, nothing is left on the frontier. -/
  exhausted : ∀ s, ¬ a.member.chain.Frontier (w.upTo w.last) s

/-- If every wave but the first reveals a hole, there is at most one wave more than there are such holes. -/
theorem count_le_of_reveals (hw : ofAnnotated a = .ok w)
    (reveals : ∀ k < w.last, ∃ y, y ∈ w.revealedAt (k + 1)) :
    w.count ≤ 1 + a.relevantHoles.toList.length := by
  -- Every wave but the first is the wave of some hole.
  have waves : List.range' 1 w.last ⊆
      a.relevantHoles.toList.map fun y => (w.revealed.get y).getD 0 := by
    intro k hk
    obtain ⟨pos, le⟩ := List.mem_range'_1.mp hk
    obtain ⟨y, hy⟩ := reveals (k - 1) (by omega)
    rw [mem_revealedAt, Nat.sub_add_cancel pos] at hy
    refine List.mem_map.mpr ⟨y, ?_, by rw [hy]; rfl⟩
    refine a.mem_relevantHoles.mpr (((partitions_of_ofAnnotated hw).revealed y).mp ?_)
    rw [hy]
    rfl
  have le := (List.subperm_of_subset List.nodup_range' waves).length_le
  rw [List.length_range', List.length_map] at le
  have := count_pos hw
  rw [last] at le
  omega

/-- After the last wave, nothing is left on the frontier. -/
theorem not_frontier_last (hw : ofAnnotated a = .ok w) : ¬ a.member.chain.Frontier (w.upTo w.last) s := by
  intro hs
  obtain ⟨y, hy, hidden⟩ := exists_hidden_of_frontier hw hs
  apply hidden
  have reachable : s ∈ Graph.reachable a.member.chain := by
    rw [Graph.mem_reachable]
    rcases hs.2 with rfl | ⟨r, hr, hrs⟩
    · exact .refl
    · rw [upTo, take_last hw, mem_flatten_of_ofAnnotated hw, Graph.mem_reachable] at hr
      exact hr.tail trivial hrs
  rw [mem_criticalHoles_iff hw, take_last hw]
  exact ⟨s, (mem_flatten_of_ofAnnotated hw).mpr reachable, hy⟩

/-- **Waves are greedy and few.** -/
theorem greedy_of_ofAnnotated (hw : ofAnnotated a = .ok w) : w.Greedy a := by
  have opens : ∀ k < w.last, ∃ s, w.Opens a.member.chain a.holes k s ∧
      ∃ wave, w.states[k + 1]? = some wave ∧ s ∈ wave := by
    obtain ⟨-, rfl⟩ := ofAnnotated_eq_ok.mp hw
    exact fun k hk => exists_opens_explore hk
  have reveals : ∀ k < w.last, ∃ y, y ∈ w.revealedAt (k + 1) := by
    intro k hk
    obtain ⟨s, opens, -⟩ := opens k hk
    obtain ⟨y, hy, hidden⟩ := exists_hidden_of_frontier hw opens.frontier
    exact ⟨y, (opens.reveals y).mpr ⟨hy, hidden⟩⟩
  refine ⟨opens, reveals, fun y j k hj hk => ?_, count_le_of_reveals hw reveals,
    fun s => not_frontier_last hw⟩
  rw [mem_revealedAt] at hj hk
  exact Option.some.inj (hj.symm.trans hk)

/-- In the diamond, the lower way costs hole 1 alone, and the upper way costs only hole 0 after that.  All
four waves are needed, since three holes matter. -/
theorem greedy_diamond :
    ∃ w, ofAnnotated diamond = .ok w ∧ w.Greedy diamond ∧ w.count = 4 ∧
      diamond.relevantHoles = .ofList [0, 1, 2] ∧ w.revealedAt 1 = .ofList [1] ∧
      w.revealedAt 2 = .ofList [0] := by
  have e : ofAnnotated diamond = .ok (explore diamond.member.chain diamond.holes) :=
    ofAnnotated_eq_ok.mpr ⟨by decide, rfl⟩
  exact ⟨_, e, greedy_of_ofAnnotated e, by decide +kernel, by decide +kernel, by decide +kernel,
    by decide +kernel⟩

end Waves

end HoleBlame
