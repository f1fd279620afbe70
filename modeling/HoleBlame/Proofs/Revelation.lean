import HoleBlame.Proofs.HoleTables
import HoleBlame.Proofs.Partition

/-!
# Critical holes are what has been revealed

A wave reveals the holes of one blocked state before anything is explored in it.  That this state is
explored in the very same wave, and that no state of the wave depends on a hole that is still hidden, are
two facts about different outputs of the exploration: the table of revealed holes and the list of waves.

Together they say that the holes that are critical at a wave are those that the states explored up to
the wave depend on, neither more nor fewer (`Waves.mem_criticalHoles_iff`).  So no hole is critical at the
first wave, where nothing has been revealed (`Exploration.Revealing.run`), and at the last wave the
critical holes are those that any reachable state depends on (`Waves.gathers_of_ofAnnotated`).
-/

namespace HoleBlame

variable {α : Type} {n h : Nat}

namespace Exploration

variable {next : Fin n → List (Fin n)} {holes : Fin n → HoleSet h} {x y : Exploration n h}

/-- Holes are revealed by waves that have been opened, and the first wave has not. -/
def Revealing (x : Exploration n h) : Prop :=
  ∀ hole wave, x.revealed.get hole = some wave → 0 < wave

theorem revealing_start {s : Fin n} : Revealing (start holes s) := by
  intro hole wave hw
  rw [get_revealed_start] at hw
  cases hw

theorem Revealing.step (hx : x.Revealing) (e : x.step? next holes = some y) : y.Revealing := by
  rcases step?_cases e with ⟨s, stack, -, rfl⟩ | ⟨-, s, -, rfl⟩
  · -- A visit reveals nothing.
    exact hx
  · intro hole wave hw
    change (reveal (x.finished.length + 1) (holes s) x.revealed).get hole = some wave at hw
    rw [get_reveal] at hw
    split at hw
    · cases hw
      exact Nat.succ_pos _
    · exact hx hole wave hw

theorem Revealing.run (hx : x.Revealing) : (x.run next holes).Revealing :=
  run_induction Revealing.step hx

end Exploration

namespace Waves

variable {c : Chain α n} {holes : Fin n → HoleSet h} {a : Annotated α n h} {w : Waves n h}
  {y : Fin h} {j k : Nat}

theorem mem_criticalHoles : y ∈ w.criticalHoles k ↔ ∃ j ≤ k, w.revealed.get y = some j := by
  rw [criticalHoles, HoleSet.mem_ofFn, Option.any_eq_true]
  constructor
  · rintro ⟨j, hj, hle⟩
    exact ⟨j, of_decide_eq_true hle, hj⟩
  · rintro ⟨j, hle, hj⟩
    exact ⟨j, hj, decide_eq_true hle⟩

/-- **Critical holes stay critical at later waves.** -/
theorem criticalHoles_mono (hjk : j ≤ k) (hy : y ∈ w.criticalHoles j) : y ∈ w.criticalHoles k := by
  obtain ⟨i, hi, revealed⟩ := mem_criticalHoles.mp hy
  exact mem_criticalHoles.mpr ⟨i, Nat.le_trans hi hjk, revealed⟩

/-- Every hole is revealed for a state that is explored by then. -/
theorem exists_of_mem_criticalHoles_explore (hy : y ∈ (explore c holes).criticalHoles k) :
    ∃ s ∈ ((explore c holes).states.take (k + 1)).flatten, y ∈ holes s := by
  have inv : Exploration.Invariant c holes (finalMoment c holes) := invariant_finalMoment
  obtain ⟨j, hj, revealed⟩ := mem_criticalHoles.mp hy
  rw [revealed_explore] at revealed
  obtain ⟨s, hs, hmem | ⟨-, hmem⟩⟩ := inv.revealed_by y j revealed
  · obtain ⟨wave, hwave, hs'⟩ := List.mem_flatten.mp hmem
    have earlier := List.take_subset_take_left (finalMoment c holes).waves (Nat.succ_le_succ hj)
    exact ⟨s, List.mem_flatten.mpr ⟨wave, earlier hwave, hs'⟩, hs⟩
  · -- Nothing waits on the stack when the search has ended.
    rw [finalMoment, Exploration.run_stack] at hmem
    cases hmem

/-- **The holes that are critical at a wave are those that the states explored up to it depend on.** -/
theorem mem_criticalHoles_iff (hw : ofAnnotated a = .ok w) : y ∈ w.criticalHoles k ↔
    ∃ s ∈ (w.states.take (k + 1)).flatten, y ∈ a.holes s := by
  constructor
  · intro hy
    obtain ⟨-, rfl⟩ := ofAnnotated_eq_ok.mp hw
    exact exists_of_mem_criticalHoles_explore hy
  · rintro ⟨s, hs, hy⟩
    exact mem_criticalHoles_of_ofAnnotated hw hs hy

/-- No hole is revealed at the first wave. -/
theorem not_mem_criticalHoles_zero (hw : ofAnnotated a = .ok w) : y ∉ w.criticalHoles 0 := by
  obtain ⟨-, rfl⟩ := ofAnnotated_eq_ok.mp hw
  intro hy
  obtain ⟨j, hj, revealed⟩ := mem_criticalHoles.mp hy
  have late : (finalMoment a.member.chain a.holes).Revealing := Exploration.revealing_start.run
  have pos := late y j revealed
  omega

theorem count_pos (hw : ofAnnotated a = .ok w) : 0 < w.count :=
  List.length_pos_of_ne_nil (states_ne_nil hw)

theorem take_last (hw : ofAnnotated a = .ok w) : w.states.take (w.last + 1) = w.states := by
  have pos := count_pos hw
  exact List.take_of_length_le (by rw [last, ← count]; omega)

/-- The critical holes of a member's waves are gathered from the states that have been explored. -/
structure Gathers (w : Waves n h) (a : Annotated α n h) : Prop where
  /-- At every wave they are the holes of the states explored so far, listed in ascending order. -/
  upTo : ∀ k < w.count, ∃ S, w.criticalHoles? k = some S ∧ S.toList.Pairwise (· < ·) ∧
    ∀ y, y ∈ S.toList ↔ ∃ s ∈ (w.states.take (k + 1)).flatten, y ∈ a.holes s
  /-- There are none at a wave that does not exist. -/
  beyond : ∀ k, w.count ≤ k → w.criticalHoles? k = none
  /-- At the first wave no hole is critical. -/
  first : w.criticalHoles? 0 = some (.empty h)
  /-- Later waves have more of them. -/
  grows : ∀ j k S T, j ≤ k → w.criticalHoles? j = some S → w.criticalHoles? k = some T →
    ∀ y ∈ S, y ∈ T
  /-- At the last wave they are the holes of all reachable states. -/
  last : ∃ S, w.criticalHoles? w.last = some S ∧
    ∀ y, y ∈ S ↔ ∃ s ∈ Graph.reachable a.member.chain, y ∈ a.holes s

theorem criticalHoles?_eq_some {S : HoleSet h} :
    w.criticalHoles? k = some S ↔ k < w.count ∧ w.criticalHoles k = S := by
  unfold criticalHoles?
  split
  · next hk => simp [hk]
  · next hk => simp [hk]

/-- **The critical holes at a wave are exactly what has been revealed for the states up to it.** -/
theorem gathers_of_ofAnnotated (hw : ofAnnotated a = .ok w) : w.Gathers a where
  upTo k hk := ⟨w.criticalHoles k, criticalHoles?_eq_some.mpr ⟨hk, rfl⟩,
    (w.criticalHoles k).ascending, fun _ => mem_criticalHoles_iff hw⟩
  beyond k hk := if_neg (Nat.not_lt.mpr hk)
  first := by
    refine criticalHoles?_eq_some.mpr ⟨count_pos hw, ?_⟩
    refine HoleSet.ext fun y => ?_
    simp [not_mem_criticalHoles_zero hw]
  grows := by
    intro j k S T hjk hS hT y hy
    obtain ⟨-, rfl⟩ := criticalHoles?_eq_some.mp hS
    obtain ⟨-, rfl⟩ := criticalHoles?_eq_some.mp hT
    exact criticalHoles_mono hjk hy
  last := by
    have pos := count_pos hw
    refine ⟨w.criticalHoles w.last, criticalHoles?_eq_some.mpr ⟨by rw [Waves.last]; omega, rfl⟩, ?_⟩
    intro y
    simp only [mem_criticalHoles_iff hw, take_last hw, mem_flatten_of_ofAnnotated hw]

/-- In the diamond, hole 2 becomes critical with the end alone. -/
theorem gathers_diamond :
    ∃ w, ofAnnotated diamond = .ok w ∧ w.Gathers diamond ∧
      w.criticalHoles? 2 = some (.ofList [1, 0]) ∧ w.criticalHoles? 3 = some (.ofList [0, 1, 2]) := by
  have e : ofAnnotated diamond = .ok (explore diamond.member.chain diamond.holes) :=
    ofAnnotated_eq_ok.mpr ⟨by decide, rfl⟩
  exact ⟨_, e, gathers_of_ofAnnotated e, by decide +kernel, by decide +kernel⟩

end Waves

end HoleBlame
