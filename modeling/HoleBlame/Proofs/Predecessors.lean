import HoleBlame.Proofs.Representation

/-!
# The table of predecessors

The transitions of a chain are sorted by their successors into an array, which is as large as the chain says
that it has transitions.  A chain counts them; a shortened chain keeps track of their number while states are
expanded in it (`Graph.Reports`).  The number is right in either case (`Graph.Reports.eq`).

So the array has room for every source, and a row of the table has the sources of the transitions to a state,
in ascending order and with the right repetitions: sorting keeps the order of the transitions, and these come
in the order of their sources (`Graph.pairwise_arrows`, `Graph.filter_arrows`).  A search along this table finds
exactly the states with a path to the given set.
-/

namespace HoleBlame

variable {α : Type} {n : ℕ}

namespace Graph

open Sorting (Shelf)

/-! ## Sources -/

theorem pairwise_arrows (c : Chain α n) : (arrows c).Pairwise fun a b => a.1 ≤ b.1 := by
  refine List.pairwise_flatMap.mpr ⟨fun s _ => ?_, (List.pairwise_lt_finRange n).imp fun {s t} lt => ?_⟩
  · refine List.pairwise_of_forall_mem_list fun a ha b hb => ?_
    obtain ⟨_, -, rfl⟩ := List.mem_map.mp ha
    obtain ⟨_, -, rfl⟩ := List.mem_map.mp hb
    exact le_refl s
  · intro a ha b hb
    obtain ⟨_, -, rfl⟩ := List.mem_map.mp ha
    obtain ⟨_, -, rfl⟩ := List.mem_map.mp hb
    exact le_of_lt lt

/-- The transitions of a state come one after the other. -/
theorem filter_arrows (c : Chain α n) (s : Fin n) :
    (arrows c).filter (·.1 = s) = (c.successors s).map (s, ·) := by
  rw [arrows, List.filter_flatMap]
  refine (List.flatMap_congr fun t _ => ?_).trans (Draft.flatMap_finRange_ite s _)
  rw [List.filter_map]
  by_cases same : t = s
  · subst same
    simp [Function.comp_def]
  · simp [Function.comp_def, same]

theorem count_arrows (c : Chain α n) (s t : Fin n) :
    (arrows c).count (s, t) = (c.successors s).count t := by
  have own : ((arrows c).filter (·.1 = s)).count (s, t) = (arrows c).count (s, t) :=
    List.count_filter (by simp)
  rw [← own, filter_arrows]
  exact List.count_map_of_injective _ _ (Prod.mk_right_injective s) t

section Table

variable {c : Chain α n} {room : ℕ} (fits : room = c.numTransitions)
include fits

theorem pairwise_predecessorsIn (t : Fin n) : ((predecessorsIn room c).get t).Pairwise (· ≤ ·) := by
  rw [get_predecessorsIn fits]
  exact List.pairwise_map.mpr ((pairwise_arrows c).filter _)

theorem count_predecessorsIn (s t : Fin n) :
    ((predecessorsIn room c).get t).count s = (c.successors s).count t := by
  rw [get_predecessorsIn fits, ← count_arrows, List.count, List.countP_map, List.countP_filter, List.count]
  refine List.countP_congr fun a _ => ?_
  simp [Prod.ext_iff]

end Table

/-! ## The number of transitions -/

/-- A chain, and the number of transitions that it reports: it counts them, or it keeps track of them while
states are expanded in it. -/
inductive Reports [Scalar α] : {n : ℕ} → Chain α n → ℕ → Prop
  | counted {n : ℕ} (c : Chain α n) : Reports c c.numTransitions
  | tracked {n : ℕ} {m : Member α n} {priors : Priors α} {p : Property α} {x : Shortcut α n}
      (made : Shortcut.ofMember m priors p = .ok x) (calls : List (List (Fin n))) :
      Reports (calls.foldl Shortcut.expand x).chain (calls.foldl Shortcut.expand x).numTransitions

variable [Scalar α] {c : Chain α n} {room : ℕ}

theorem Reports.eq (reports : Reports c room) : room = c.numTransitions := by
  cases reports with
  | counted => rfl
  | tracked made calls =>
    rw [Shortcut.foldl_expand]
    exact ((Shortcut.counted_of_ofMember made).expand calls.flatten).transitions

/-! ## Searching backwards -/

/-- What the table of predecessors is, with room for so many transitions, and what is found with it. -/
structure SearchesBackwards (c : Chain α n) (room : ℕ) : Prop where
  /-- Every source is placed inside the array. -/
  placed : ∀ done arrow rest, backArrows c = done ++ arrow :: rest →
    (done.foldl Shelf.place (.ofCounts (.replicate room c.initial) (backArrows c))).positions.get
      arrow.1.castSucc < room
  /-- Every row is cut out of the inside of the array. -/
  cut : ∀ t : Fin n, ∀ shelf, shelf = Sorting.sorted (.replicate room c.initial) (backArrows c) →
    shelf.items.size = room ∧ shelf.positions.get t.castSucc ≤ shelf.positions.get t.succ ∧
      shelf.positions.get t.succ ≤ room
  ascending : ∀ t, ((predecessorsIn room c).get t).Pairwise (· ≤ ·)
  count : ∀ s t, ((predecessorsIn room c).get t).count s = (c.successors s).count t
  /-- The last state of a path need not be passed through, and a path may be empty. -/
  found : ∀ set through s, s ∈ backward (predecessorsIn room c) set through ↔
    ∃ t ∈ set, c.Path (fun x => through x = true) s t

/-- **The search backwards is exact**, in a chain and in a chain that is shortened. -/
theorem searchesBackwards_of_reports (reports : Reports c room) : SearchesBackwards c room := by
  have fits := reports.eq
  have size := size_room fits
  constructor
  case placed =>
    intro done arrow rest split
    have held := Shelf.holds_foldl_place size split
    have inside := held.position_lt split
    rwa [held.size, length_backArrows, ← fits] at inside
  case cut =>
    rintro t _ rfl
    have stretch := Sorting.stretch_le size t
    rw [Sorting.size_sorted size, length_backArrows, ← fits] at stretch
    exact ⟨by rw [Sorting.size_sorted size, length_backArrows, fits], stretch⟩
  case ascending => exact pairwise_predecessorsIn fits
  case count => exact count_predecessorsIn fits
  case found =>
    intro set through s
    exact mem_backwardIn fits

/-- A road, expanded from its end, with states named twice.  Every state keeps one transition. -/
theorem searchesBackwards_road :
    ∃ x, Shortcut.ofMember (.identity (Explanation.roadChain 5)) Shortcut.tollSign
        ⟨.reward "cost" "target", ⟨.lessEqual, 4⟩⟩ = .ok x ∧
      SearchesBackwards ([[2], [0, 2, 0]].foldl Shortcut.expand x).chain
        ([[2], [0, 2, 0]].foldl Shortcut.expand x).numTransitions ∧
      ([[2], [0, 2, 0]].foldl Shortcut.expand x).numTransitions = 5 := by
  have computed : (Shortcut.ofMember (.identity (Explanation.roadChain 5)) Shortcut.tollSign
      ⟨.reward "cost" "target", ⟨.lessEqual, 4⟩⟩).toOption.map (fun x =>
        ([[2], [0, 2, 0]].foldl Shortcut.expand x).numTransitions) = some 5 := by
    decide +kernel
  cases made : Shortcut.ofMember (.identity (Explanation.roadChain 5)) Shortcut.tollSign
      ⟨.reward "cost" "target", ⟨.lessEqual, 4⟩⟩ with
  | error => rw [made] at computed; cases computed
  | ok x =>
    rw [made] at computed
    exact ⟨x, rfl, searchesBackwards_of_reports (.tracked made [[2], [0, 2, 0]]), Option.some.inj computed⟩

end Graph

end HoleBlame
