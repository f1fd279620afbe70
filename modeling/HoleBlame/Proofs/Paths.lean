import HoleBlame.Graph
import HoleBlame.Proofs.Sorting
import Mathlib.Logic.Relation

/-!
# Paths of a chain, and what its searches find

A search is an algorithm on lists of states that have and have not been seen; what it finds is a matter of
paths.  `Chain.Path` is the path relation: all states of a path, the last one apart, may be passed
through.  The two searches find exactly what paths reach:

* `Graph.mem_reachable`: the states at the end of a path from the initial state;
* `Graph.mem_backward`: the states at the beginning of a path to a given set.

The first search goes level by level (`Graph.mem_closure`).  The second one empties a stack: what has been
seen is settled, but for the states on the stack (`Graph.Pending`), and so it is closed in the end
(`Graph.mem_drain`).  It follows the transitions read backwards, which is what `Graph.get_predecessorsIn` says
of the table of predecessors.
-/

namespace HoleBlame

open Relation (ReflTransGen)

variable {α : Type} {n : Nat}

namespace Chain

theorem toList_rows (c : Chain α n) : c.rows.toList = (List.finRange n).map c.row :=
  List.ext_getElem (by simp) fun s hs hs' => by simp [row, get_eq_getElem]

/-- A transition out of a state that may be passed through. -/
def Moves (c : Chain α n) (through : Fin n → Prop) (s t : Fin n) : Prop :=
  through s ∧ t ∈ c.successors s

/-- There is a path from one state to another all of whose states, the last one apart, may be passed
through. -/
def Path (c : Chain α n) (through : Fin n → Prop) : Fin n → Fin n → Prop :=
  ReflTransGen (c.Moves through)

variable {c : Chain α n} {through other : Fin n → Prop} {s t u : Fin n}

theorem Path.refl : c.Path through s s :=
  ReflTransGen.refl

theorem Path.head (hs : through s) (ht : t ∈ c.successors s) (h : c.Path through t u) :
    c.Path through s u :=
  ReflTransGen.head ⟨hs, ht⟩ h

theorem Path.tail (h : c.Path through s t) (ht : through t) (hu : u ∈ c.successors t) :
    c.Path through s u :=
  ReflTransGen.tail h ⟨ht, hu⟩

theorem Path.trans (h : c.Path through s t) (h' : c.Path through t u) : c.Path through s u :=
  ReflTransGen.trans h h'

/-- A path is empty, or it begins with a transition. -/
theorem Path.cases_head (h : c.Path through s u) :
    s = u ∨ through s ∧ ∃ t ∈ c.successors s, c.Path through t u := by
  rcases ReflTransGen.cases_head h with rfl | ⟨t, hst, htu⟩
  · exact .inl rfl
  · exact .inr ⟨hst.1, t, hst.2, htu⟩

/-- Induction on a path from its end: what holds of the last state and passes from every state to
its predecessors on the path holds of the first state. -/
theorem Path.headInduction {motive : Fin n → Prop} (h : c.Path through s t) (last : motive t)
    (step : ∀ x y, through x → y ∈ c.successors x → c.Path through y t → motive y → motive x) :
    motive s := by
  induction h using ReflTransGen.head_induction_on with
  | refl => exact last
  | head hxy hyt ih => exact step _ _ hxy.1 hxy.2 hyt ih

/-- Induction along a path: what holds of the first state and passes from every state to its
successors on the path holds of the last state. -/
theorem Path.tailInduction {motive : Fin n → Prop} (h : c.Path through s t) (first : motive s)
    (step : ∀ x y, c.Path through s x → through x → y ∈ c.successors x → motive x → motive y) :
    motive t := by
  induction h with
  | refl => exact first
  | tail hsx hxy ih => exact step _ _ hsx hxy.1 hxy.2 ih

theorem Path.mono (hsub : ∀ x, through x → other x) (h : c.Path through s t) : c.Path other s t := by
  refine h.tailInduction .refl ?_
  intro x y _ hx hy path
  exact path.tail (hsub x hx) hy

end Chain

namespace Graph

/-! ## Fresh states -/

/-- A new state is one of the list that has not been seen. -/
theorem mem_fresh {seen : StateSet n} {states : List (Fin n)} {t : Fin n} :
    t ∈ (fresh seen states).1 ↔ t ∈ states ∧ t ∉ seen := by
  induction states generalizing seen with
  | nil => simp [fresh]
  | cons s rest ih =>
    unfold fresh
    split
    · next h =>
      rw [ih, List.mem_cons]
      constructor
      · rintro ⟨ht, hn⟩
        exact ⟨.inr ht, hn⟩
      · rintro ⟨rfl | ht, hn⟩
        · exact absurd h hn
        · exact ⟨ht, hn⟩
    · next h =>
      simp only [List.mem_cons, ih, StateSet.mem_insert, not_or]
      by_cases he : t = s
      · subst he
        simp [h]
      · simp [he]

/-- No state is new twice. -/
theorem nodup_fresh {seen : StateSet n} {states : List (Fin n)} :
    (fresh seen states).1.Nodup := by
  induction states generalizing seen with
  | nil => simp [fresh]
  | cons s rest ih =>
    unfold fresh
    split
    · exact ih
    · exact List.nodup_cons.mpr ⟨fun h => (mem_fresh.mp h).2 (by simp), ih⟩

/-- The states seen afterwards are those seen before and those of the list. -/
theorem mem_seen_fresh {seen : StateSet n} {states : List (Fin n)} {t : Fin n} :
    t ∈ (fresh seen states).2 ↔ t ∈ seen ∨ t ∈ states := by
  rw [mem_fresh_seen, mem_fresh]
  by_cases h : t ∈ seen <;> simp [h]

/-! ## Forwards -/

/-- A search meets no state that cannot be reached from its frontier. -/
theorem exists_of_mem_explore {next : Fin n → List (Fin n)} {frontier : List (Fin n)}
    {seen : StateSet n} {t : Fin n} (h : t ∈ explore next frontier seen) :
    ∃ s ∈ frontier, ReflTransGen (fun x y => y ∈ next x) s t := by
  induction frontier, seen using explore.induct next with
  | case1 frontier seen seen' e =>
    rw [explore, e] at h
    exact ⟨t, h, .refl⟩
  | case2 frontier seen new rest seen' e ih =>
    rw [explore, e] at h
    rcases List.mem_append.mp h with h | h
    · exact ⟨t, h, .refl⟩
    · obtain ⟨s, hs, path⟩ := ih h
      have fresh_s : s ∈ (fresh seen (frontier.flatMap next)).1 := by rw [e]; exact hs
      obtain ⟨r, hr, hrs⟩ := List.mem_flatMap.mp (mem_fresh.mp fresh_s).1
      exact ⟨r, hr, .head hrs path⟩

/-- **A search finds exactly what can be reached.** -/
theorem mem_closure {next : Fin n → List (Fin n)} {starts : List (Fin n)} {t : Fin n} :
    t ∈ closure next starts ↔ ∃ s ∈ starts, ReflTransGen (fun x y => y ∈ next x) s t := by
  refine ⟨exists_of_mem_explore, ?_⟩
  rintro ⟨s, hs, path⟩
  -- By induction on the path: what has been found is closed under moves.
  induction path with
  | refl => exact subset_closure hs
  | tail _ hxy ih => exact next_mem_closure ih hxy

/-- **The reachable states are those at the end of a path from the initial state.** -/
theorem mem_reachable {c : Chain α n} {s : Fin n} :
    s ∈ reachable c ↔ c.Path (fun _ => True) c.initial s := by
  have moves : (fun x y => y ∈ c.successors x) = c.Moves fun _ => True := by
    funext x y
    simp [Chain.Moves]
  rw [reachable, StateSet.mem_ofList, mem_closure, Chain.Path, ← moves]
  simp

/-! ## Emptying a stack -/

/-- What has been seen is settled: all neighbours of a state have been seen, unless it is on the stack. -/
structure Pending (next : Fin n → List (Fin n)) (stack : List (Fin n)) (seen : StateSet n) : Prop where
  stacked : ∀ s ∈ stack, s ∈ seen
  settled : ∀ s ∈ seen, s ∈ stack ∨ ∀ t ∈ next s, t ∈ seen

section Drain

variable {next : Fin n → List (Fin n)} {stack rest : List (Fin n)} {seen : StateSet n} {s t : Fin n}

/-- Taking a state from the stack settles it. -/
theorem Pending.step (pending : Pending next (s :: rest) seen) :
    Pending next ((fresh seen (next s)).1.reverse ++ rest) (fresh seen (next s)).2 where
  stacked t ht := by
    rcases List.mem_append.mp ht with new | old
    · exact mem_fresh_seen.mpr (.inr (List.mem_reverse.mp new))
    · exact mem_fresh_seen.mpr (.inl (pending.stacked t (List.mem_cons_of_mem s old)))
  settled t ht := by
    rcases mem_fresh_seen.mp ht with old | new
    · rcases pending.settled t old with stacked | settled
      · rcases List.mem_cons.mp stacked with rfl | stacked
        · exact .inr fun u hu => mem_fresh_of_mem hu
        · exact .inl (List.mem_append_right _ stacked)
      · exact .inr fun u hu => mem_fresh_seen.mpr (.inl (settled u hu))
    · exact .inl (List.mem_append_left _ (List.mem_reverse.mpr new))

theorem subset_drain (hs : s ∈ seen) : s ∈ drain next stack seen := by
  induction stack, seen using drain.induct next with
  | case1 seen => rwa [drain]
  | case2 seen r rest new seen' e ih =>
    rw [drain, e]
    refine ih ?_
    have kept : s ∈ (fresh seen (next r)).2 := mem_fresh_seen.mpr (.inl hs)
    rwa [e] at kept

/-- When the stack is empty, what has been seen is closed. -/
theorem next_mem_drain (pending : Pending next stack seen) (hs : s ∈ drain next stack seen)
    (ht : t ∈ next s) : t ∈ drain next stack seen := by
  induction stack, seen using drain.induct next with
  | case1 seen =>
    rw [drain] at hs ⊢
    exact (pending.settled s hs).resolve_left List.not_mem_nil t ht
  | case2 seen r rest new seen' e ih =>
    have later := pending.step
    rw [e] at later
    rw [drain, e] at hs ⊢
    exact ih later hs

/-- Nothing is seen that cannot be reached from what was seen before. -/
theorem exists_of_mem_drain (stacked : ∀ s ∈ stack, s ∈ seen) (ht : t ∈ drain next stack seen) :
    ∃ s ∈ seen, ReflTransGen (fun x y => y ∈ next x) s t := by
  induction stack, seen using drain.induct next with
  | case1 seen =>
    rw [drain] at ht
    exact ⟨t, ht, .refl⟩
  | case2 seen r rest new seen' e ih =>
    rw [drain, e] at ht
    have new_iff {u : Fin n} : u ∈ seen' ↔ u ∈ seen ∨ u ∈ next r := by
      have : u ∈ (fresh seen (next r)).2 ↔ _ := mem_seen_fresh
      rwa [e] at this
    have stacked' : ∀ s ∈ new.reverse ++ rest, s ∈ seen' := by
      intro s hs
      rcases List.mem_append.mp hs with hs | hs
      · have : s ∈ (fresh seen (next r)).1 := by rw [e]; exact List.mem_reverse.mp hs
        exact new_iff.mpr (.inr (mem_fresh.mp this).1)
      · exact new_iff.mpr (.inl (stacked s (List.mem_cons_of_mem r hs)))
    obtain ⟨s, hs, path⟩ := ih stacked' ht
    rcases new_iff.mp hs with old | neighbour
    · exact ⟨s, old, path⟩
    · exact ⟨r, stacked r List.mem_cons_self, .head neighbour path⟩

/-- **Emptying a stack finds exactly what can be reached.** -/
theorem mem_drain (all : ∀ s, s ∈ stack ↔ s ∈ seen) :
    t ∈ drain next stack seen ↔ ∃ s ∈ seen, ReflTransGen (fun x y => y ∈ next x) s t := by
  have pending : Pending next stack seen := ⟨fun s => (all s).mp, fun s hs => .inl ((all s).mpr hs)⟩
  refine ⟨exists_of_mem_drain pending.stacked, ?_⟩
  rintro ⟨s, hs, path⟩
  induction path with
  | refl => exact subset_drain hs
  | tail _ hxy ih => exact next_mem_drain pending ih hxy

end Drain

/-! ## Backwards -/

theorem mem_arrows {c : Chain α n} {s t : Fin n} : (s, t) ∈ arrows c ↔ t ∈ c.successors s := by
  simp [arrows]

theorem length_backArrows (c : Chain α n) : (backArrows c).length = c.numTransitions := by
  rw [backArrows, List.length_map, arrows, Chain.numTransitions, Chain.toList_rows, List.length_flatMap,
    List.length_flatten, List.map_map]
  simp [Function.comp_def, Chain.successors]

section Table

variable {c : Chain α n} {room : ℕ} (fits : room = c.numTransitions)
include fits

theorem size_room : (Array.replicate room c.initial).size = (backArrows c).length := by
  rw [Array.size_replicate, length_backArrows, fits]

/-- The predecessors of a state are the sources of the transitions into it. -/
theorem get_predecessorsIn (t : Fin n) :
    (predecessorsIn room c).get t = ((arrows c).filter (·.2 = t)).map (·.1) := by
  rw [predecessorsIn, Sorting.get_rowsIn (size_room fits), Sorting.row, backArrows, List.filter_map,
    List.map_map]
  rfl

theorem mem_predecessorsIn {s t : Fin n} :
    s ∈ (predecessorsIn room c).get t ↔ t ∈ c.successors s := by
  rw [get_predecessorsIn fits, ← mem_arrows]
  simp

/-- **The search backwards finds the states with a path to the set.** -/
theorem mem_backwardIn {set : StateSet n} {through : Fin n → Bool} {s : Fin n} :
    s ∈ backward (predecessorsIn room c) set through ↔
      ∃ t ∈ set, c.Path (fun x => through x = true) s t := by
  -- The search moves from a state to those of its predecessors that may be passed.
  have moves : (fun x y => y ∈ ((predecessorsIn room c).get x).filter through)
      = Function.swap (c.Moves fun x => through x = true) := by
    funext x y
    rw [List.mem_filter, mem_predecessorsIn fits]
    exact propext and_comm
  rw [backward, mem_drain (fun t => by simp), moves]
  simp only [Relation.reflTransGen_swap]
  rfl

end Table

theorem mem_backward {c : Chain α n} {set : StateSet n} {through : Fin n → Bool} {s : Fin n} :
    s ∈ backward (predecessors c) set through ↔
      ∃ t ∈ set, c.Path (fun x => through x = true) s t :=
  mem_backwardIn rfl

end Graph

end HoleBlame
