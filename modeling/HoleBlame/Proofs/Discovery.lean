import HoleBlame.Proofs.Exploration
import Mathlib.Data.List.MinMax

/-!
# The order of discovery

The states that an exploration has met so far are the initial state and the successors of the states that
it has explored, in the order of their exploration (`Exploration.met`).  A state is found where it is met
first, and the states that are blocked wait in the order in which they were found.  Every step preserves
this (`Exploration.InOrder.step`), since what a visit finds is appended, and opening a wave only takes
states away.

Once nothing can be explored, the blocked states are the frontier of what has been explored
(`Exploration.Invariant.mem_waiting_iff`).  Their counts are up to date although holes have been revealed
since they were found, so the one for which a wave is opened has the fewest hidden holes
(`Exploration.Invariant.candidate?_eq`), and of several it is the one that was met first
(`Exploration.InOrder.idxOf_candidate_le`).
-/

namespace HoleBlame

variable {α : Type} {n h : Nat}

/-! ## First occurrences -/

namespace Graph

variable {seen : StateSet n} {states : List (Fin n)} {s t : Fin n}

/-- What is new in two lists is new in the first one, or new in the second one after that. -/
theorem fresh_append (seen : StateSet n) (states more : List (Fin n)) :
    fresh seen (states ++ more) =
      ((fresh seen states).1 ++ (fresh (fresh seen states).2 more).1,
        (fresh (fresh seen states).2 more).2) := by
  induction states generalizing seen with
  | nil => rfl
  | cons s rest ih =>
    rw [List.cons_append, fresh, fresh]
    split
    · exact ih seen
    · rw [ih]
      rfl

/-- New states are listed in the order in which they occur first. -/
theorem pairwise_idxOf_fresh :
    (fresh seen states).1.Pairwise fun s t => states.idxOf s < states.idxOf t := by
  induction states generalizing seen with
  | nil => exact .nil
  | cons s rest ih =>
    -- What is new behind the first state is different from it, so it occurs one place later.
    have behind {seen : StateSet n} (hs : s ∈ seen) : (fresh seen rest).1.Pairwise fun t u =>
        (s :: rest).idxOf t < (s :: rest).idxOf u := by
      refine ih.imp_of_mem fun {t u} ht hu hlt => ?_
      have other {t : Fin n} (ht : t ∈ (fresh seen rest).1) : s ≠ t := by
        rintro rfl
        exact (mem_fresh.mp ht).2 hs
      rw [List.idxOf_cons_ne _ (other ht), List.idxOf_cons_ne _ (other hu)]
      exact Nat.succ_lt_succ hlt
    rw [fresh]
    split
    · next hs => exact behind hs
    · refine List.pairwise_cons.mpr ⟨fun t ht => ?_, behind (by simp)⟩
      have other : s ≠ t := by
        rintro rfl
        exact (mem_fresh.mp ht).2 (by simp)
      rw [List.idxOf_cons_self, List.idxOf_cons_ne _ other]
      exact Nat.succ_pos _

end Graph

/-- The frontier of some states: what can be reached from them in one step, or the initial state, unless
it is one of them. -/
def Chain.Frontier (c : Chain α n) (explored : List (Fin n)) (s : Fin n) : Prop :=
  s ∉ explored ∧ (s = c.initial ∨ ∃ r ∈ explored, s ∈ c.successors r)

namespace Exploration

variable {c : Chain α n} {holes : Fin n → HoleSet h} {next : Fin n → List (Fin n)}
  {x y : Exploration n h} {s t : Fin n} {stack : List (Fin n)}

/-! ## What has been met -/

/-- The states that have been met, with repetitions, in the order in which they were met. -/
def met (c : Chain α n) (x : Exploration n h) : List (Fin n) :=
  c.initial :: x.explored.flatMap c.successors

/-- The states that have been found are those that have been met, and the blocked ones wait in the order in
which they were met first. -/
structure InOrder (c : Chain α n) (x : Exploration n h) : Prop where
  found : x.found = (Graph.fresh (.empty n) (met c x)).2
  waiting : x.waiting.Sublist (Graph.fresh (.empty n) (met c x)).1

theorem inOrder_start : InOrder c (start holes c.initial) := by
  have first : Graph.fresh (.empty n) (met c (start holes c.initial)) =
      ([c.initial], (StateSet.empty n).insert c.initial) := by
    rw [met, explored_start, List.flatMap_nil, Graph.fresh, if_neg StateSet.not_mem_empty]
    rfl
  refine ⟨by rw [first]; rfl, ?_⟩
  rw [first, waiting_start]
  exact List.filter_sublist

theorem met_visit : met c (x.visit c.successors holes s stack) = met c x ++ c.successors s := by
  rw [met, met, explored_visit]
  simp

theorem met_openWave : met c (x.openWave holes s) = met c x := by
  rw [met, met, explored_openWave]

/-- A visit finds what it meets for the first time. -/
theorem InOrder.visit (ordered : InOrder c x) :
    InOrder c (x.visit c.successors holes s stack) := by
  have split := Graph.fresh_append (.empty n) (met c x) (c.successors s)
  rw [← ordered.found] at split
  constructor
  · rw [met_visit, split]
    rfl
  · rw [met_visit, split, waiting_visit]
    exact ordered.waiting.append List.filter_sublist

/-- Opening a wave finds nothing. -/
theorem InOrder.openWave (ordered : InOrder c x) : InOrder c (x.openWave holes s) := by
  constructor
  · rw [met_openWave]
    exact ordered.found
  · rw [met_openWave, waiting_openWave]
    exact List.filter_sublist.trans ordered.waiting

/-- **Every step keeps the blocked states in order.** -/
theorem InOrder.step (ordered : InOrder c x) (e : x.step? c.successors holes = some y) :
    InOrder c y := by
  rcases step?_cases e with ⟨s, stack, -, rfl⟩ | ⟨-, s, -, rfl⟩
  · exact ordered.visit
  · exact ordered.openWave

/-- Blocked states wait in the order in which they were met first. -/
theorem InOrder.pairwise (ordered : InOrder c x) :
    x.waiting.Pairwise fun s t => (met c x).idxOf s < (met c x).idxOf t :=
  Graph.pairwise_idxOf_fresh.sublist ordered.waiting

/-! ## The frontier -/

/-- **Once nothing can be explored, the blocked states are the frontier.** -/
theorem Invariant.mem_waiting_iff (inv : Invariant c holes x) (hs : x.stack = []) :
    s ∈ x.waiting ↔ c.Frontier x.explored s := by
  have split : x.roster = x.waiting ++ x.explored := by rw [roster, hs, List.nil_append]
  have apart := List.nodup_append.mp (split ▸ inv.nodup)
  have found : s ∈ x.found ↔ s ∈ x.waiting ∨ s ∈ x.explored := by
    rw [inv.mem_found, split, List.mem_append]
  constructor
  · intro hb
    exact ⟨fun he => apart.2.2 s hb s he rfl, inv.origin s (found.mpr (.inl hb))⟩
  · rintro ⟨outside, rfl | ⟨r, hr, hrs⟩⟩
    · exact (found.mp inv.initial).resolve_right outside
    · exact (found.mp (inv.closed r hr s hrs)).resolve_right outside

/-- If the initial state is on the frontier, then nothing has been explored. -/
theorem Invariant.explored_eq_nil (inv : Invariant c holes x) (hs : x.stack = [])
    (outside : c.initial ∉ x.explored) : x.explored = [] := by
  rw [List.eq_nil_iff_forall_not_mem]
  intro s he
  obtain ⟨path, ho⟩ := inv.reveals s he
  apply outside
  rw [inv.mem_explored_iff hs]
  rcases path.cases_head with rfl | ⟨ho', -⟩
  · exact .initial ho
  · exact .initial ho'

/-! ## The candidate -/

/-- The cheapest of some counted states is the first of those with the fewest hidden holes. -/
theorem map_cheapest?_count {revealed : Vector (Option Nat) h} (states : List (Fin n)) :
    (cheapest? (count holes revealed states)).map (·.1) =
      states.argmin fun s => hidden revealed (holes s) := by
  have pairs : cheapest? (count holes revealed states) =
      (states.argmin fun s => hidden revealed (holes s)).map fun s => (s, hidden revealed (holes s)) := by
    induction states with
    | nil => rfl
    | cons s rest ih =>
      rw [count, List.map_cons, ← count, cheapest?, ih, List.argmin_cons]
      cases rest.argmin fun s => hidden revealed (holes s) with
      | none => rfl
      | some t =>
        by_cases fewer : hidden revealed (holes t) < hidden revealed (holes s) <;> simp [fewer]
  rw [pairs, Option.map_map]
  exact Option.map_id'

/-- **The counts that the search goes by are right**: the candidate is the first of the blocked states with
the fewest holes that are hidden now. -/
theorem Invariant.candidate?_eq (inv : Invariant c holes x) :
    x.candidate? = x.waiting.argmin fun s => hidden x.revealed (holes s) := by
  have counts : x.blocked = count holes x.revealed x.waiting := by
    rw [count, waiting, List.map_map]
    exact (List.map_id' _).symm.trans (List.map_congr_left fun e he => Prod.ext rfl (inv.counted e he))
  rw [candidate?, counts, map_cheapest?_count]

/-- Of the blocked states with as few hidden holes as the candidate, none was met before it. -/
theorem InOrder.idxOf_candidate_le (ordered : InOrder c x) (inv : Invariant c holes x)
    (hc : x.candidate? = some s) (ht : t ∈ x.waiting)
    (same : hidden x.revealed (holes t) = hidden x.revealed (holes s)) :
    (met c x).idxOf s ≤ (met c x).idxOf t := by
  rw [inv.candidate?_eq] at hc
  have hs := List.argmin_mem hc
  rcases Nat.lt_or_eq_of_le (List.index_of_argmin hc ht same.le) with earlier | here
  · have inOrder := List.pairwise_iff_getElem.mp ordered.pairwise _ _ (List.idxOf_lt_length_of_mem hs)
      (List.idxOf_lt_length_of_mem ht) earlier
    rw [List.getElem_idxOf, List.getElem_idxOf] at inOrder
    exact inOrder.le
  · rw [(List.idxOf_inj hs).mp here]

end Exploration

end HoleBlame
