import HoleBlame.Chain
import HoleBlame.Sorting

/-!
# Searching a chain

`explore` visits the states that can be reached from some states along a given successor function,
level by level and within a level in the order in which they are met.  No state is visited twice: the
states of a new level are those not seen before (`fresh`), and seeing them leaves fewer states unseen
(`absent_fresh`), which is why a search ends.

The states reachable from the initial state are found by such a search.  The states from which a set can be
reached are found along the transitions read backwards, which are sorted by their successors
(`predecessorsIn`).  This search takes the states from a stack (`drain`), and it ends for the same reason.
-/

namespace HoleBlame.Graph

variable {α : Type} {n : Nat}

/-- The states of a list that have not been seen, each once and in order, and the set of the states
seen afterwards. -/
def fresh (seen : StateSet n) : List (Fin n) → List (Fin n) × StateSet n
  | [] => ([], seen)
  | s :: rest =>
    if s ∈ seen then fresh seen rest
    else
      let (new, seen) := fresh (seen.insert s) rest
      (s :: new, seen)

/-- Every new state is one state less that has not been seen. -/
theorem absent_fresh (seen : StateSet n) (states : List (Fin n)) :
    (fresh seen states).2.absent + (fresh seen states).1.length = seen.absent := by
  induction states generalizing seen with
  | nil => simp [fresh]
  | cons s rest ih =>
    unfold fresh
    split
    · exact ih seen
    · next h =>
      have := ih (seen.insert s)
      have := StateSet.absent_insert h
      simp only [List.length_cons]
      omega

/-- What has been seen afterwards was seen before or is new. -/
theorem mem_fresh_seen {seen : StateSet n} {states : List (Fin n)} {t : Fin n} :
    t ∈ (fresh seen states).2 ↔ t ∈ seen ∨ t ∈ (fresh seen states).1 := by
  induction states generalizing seen with
  | nil => simp [fresh]
  | cons s rest ih =>
    unfold fresh
    split
    · exact ih
    · simp [ih, or_left_comm, or_assoc]

/-- Every state of the list has been seen afterwards. -/
theorem mem_fresh_of_mem {seen : StateSet n} {states : List (Fin n)} {t : Fin n} (ht : t ∈ states) :
    t ∈ (fresh seen states).2 := by
  induction states generalizing seen with
  | nil => cases ht
  | cons s rest ih =>
    unfold fresh
    split
    · next h =>
      rcases List.mem_cons.mp ht with rfl | ht
      · exact mem_fresh_seen.mpr (.inl h)
      · exact ih ht
    · rcases List.mem_cons.mp ht with rfl | ht
      · exact mem_fresh_seen.mpr (.inl (by simp))
      · exact ih ht

/-- The states on the frontier, followed by those that can be reached from them and have not been
seen, in the order in which a search level by level meets them. -/
def explore (next : Fin n → List (Fin n)) (frontier : List (Fin n)) (seen : StateSet n) :
    List (Fin n) :=
  match _h : fresh seen (frontier.flatMap next) with
  | ([], _) => frontier
  | (s :: new, seen') => frontier ++ explore next (s :: new) seen'
termination_by seen.absent
decreasing_by
  have := absent_fresh seen (frontier.flatMap next)
  simp only [_h, List.length_cons] at this
  omega

theorem subset_explore {next : Fin n → List (Fin n)} {frontier : List (Fin n)} {seen : StateSet n} :
    frontier ⊆ explore next frontier seen := by
  unfold explore
  split
  · exact fun _ h => h
  · exact fun _ h => List.mem_append_left _ h

/-- A successor of a state that is met has been met or was seen before. -/
theorem next_mem_explore {next : Fin n → List (Fin n)} {frontier : List (Fin n)} {seen : StateSet n}
    {s t : Fin n} (hs : s ∈ explore next frontier seen) (ht : t ∈ next s) :
    t ∈ explore next frontier seen ∨ t ∈ seen := by
  have met {frontier : List (Fin n)} {seen : StateSet n} (h : s ∈ frontier) :
      t ∈ seen ∨ t ∈ (fresh seen (frontier.flatMap next)).1 :=
    mem_fresh_seen.mp (mem_fresh_of_mem (List.mem_flatMap.mpr ⟨s, h, ht⟩))
  induction frontier, seen using explore.induct next with
  | case1 frontier seen seen' e =>
    rw [explore, e] at hs
    have := e ▸ met hs
    simp_all
  | case2 frontier seen new rest seen' e ih =>
    rw [explore, e] at hs ⊢
    have new_met : t ∈ new :: rest → t ∈ explore next (new :: rest) seen' := fun h => subset_explore h
    have seen_iff : t ∈ seen' ↔ t ∈ seen ∨ t ∈ new :: rest := by
      have : t ∈ (fresh seen (frontier.flatMap next)).2 ↔ _ := mem_fresh_seen
      simpa [e] using this
    rcases List.mem_append.mp hs with h | h
    · rcases e ▸ met h with h | h
      · exact .inr h
      · exact .inl (List.mem_append_right _ (new_met h))
    · rcases ih h with h | h
      · exact .inl (List.mem_append_right _ h)
      · rcases seen_iff.mp h with h | h
        · exact .inr h
        · exact .inl (List.mem_append_right _ (new_met h))

/-- The states that can be reached from the states of a list without repetitions. -/
def closure (next : Fin n → List (Fin n)) (starts : List (Fin n)) : List (Fin n) :=
  explore next starts (StateSet.ofList starts)

/-- A successor of a state that can be reached can be reached. -/
theorem next_mem_closure {next : Fin n → List (Fin n)} {starts : List (Fin n)} {s t : Fin n}
    (hs : s ∈ closure next starts) (ht : t ∈ next s) : t ∈ closure next starts := by
  rcases next_mem_explore hs ht with h | h
  · exact h
  · exact subset_explore (StateSet.mem_ofList.mp h)

theorem subset_closure {next : Fin n → List (Fin n)} {starts : List (Fin n)} :
    starts ⊆ closure next starts :=
  subset_explore

/-- The states that can be reached from the initial state. -/
def reachable (c : Chain α n) : StateSet n :=
  StateSet.ofList (closure c.successors [c.initial])

/-! ## Backwards -/

/-- The transitions of a chain as pairs of source and successor, in the order of the sources and of
the transitions of each. -/
def arrows (c : Chain α n) : List (Fin n × Fin n) :=
  (List.finRange n).flatMap fun s => (c.successors s).map fun t => (s, t)

/-- The transitions of a chain read backwards, in the same order. -/
def backArrows (c : Chain α n) : List (Fin n × Fin n) :=
  (arrows c).map Prod.swap

/-- The predecessors of every state, ascending, and repeated as often as there are transitions.  They are
sorted into an array with room for the given number of transitions. -/
def predecessorsIn (room : Nat) (c : Chain α n) : Vector (List (Fin n)) n :=
  Sorting.rowsIn (Array.replicate room c.initial) (backArrows c)

/-- The predecessors of every state. -/
def predecessors (c : Chain α n) : Vector (List (Fin n)) n :=
  predecessorsIn c.numTransitions c

/-- Takes one state after the other from a stack, whose top comes first, and puts those of its neighbours
on it that have not been seen, the last of them on top.  The result is what has been seen in the end. -/
def drain (next : Fin n → List (Fin n)) (stack : List (Fin n)) (seen : StateSet n) : StateSet n :=
  match stack with
  | [] => seen
  | s :: rest =>
    match _h : fresh seen (next s) with
    | (new, seen') => drain next (new.reverse ++ rest) seen'
termination_by seen.absent + stack.length
decreasing_by
  have := absent_fresh seen (next s)
  simp only [_h] at this
  simp only [List.length_append, List.length_reverse, List.length_cons]
  omega

/-- The states from which a state of a set can be reached by a path that stays inside `through` until
it gets there.  The states of the set themselves always belong to the result. -/
def backward (table : Vector (List (Fin n)) n) (set : StateSet n) (through : Fin n → Bool) :
    StateSet n :=
  drain (fun t => (table.get t).filter through) set.toList.reverse set

end HoleBlame.Graph
