import HoleBlame.Graph
import HoleBlame.HoleSet

/-!
# Exploring a chain while holes are revealed

A state can be explored once all its holes have been revealed, and then it gives its successors away.
An `Exploration` is a moment of this search.  It proceeds in two kinds of steps:

* while there are states that can be explored, the one found last is explored, and its successors that
  are new are found (`visit`);
* otherwise the states that have been found are all blocked.  One of them with the fewest hidden holes,
  the first one found, has its holes revealed, which starts a new wave (`openWave`).

The hidden holes of a state are counted when it is found.  The count is kept with a blocked state, where the
search for the fewest hidden holes reads it, and all counts are renewed whenever holes have been revealed.

Each step lowers the `potential` of the search, so it ends, and what is left then is blocked by
nothing.
-/

namespace HoleBlame

/-- A moment of the search of a chain with `n` states whose transitions depend on `h` holes. -/
structure Exploration (n h : Nat) where
  /-- The states that can be explored, the next one first. -/
  stack : List (Fin n)
  /-- The states with hidden holes, in the order in which they were found, and how many holes these were when
  they were last counted. -/
  blocked : List (Fin n × Nat)
  /-- The states that have been found. -/
  found : StateSet n
  /-- The wave at which a hole was revealed; hidden holes have none. -/
  revealed : Vector (Option Nat) h
  /-- The states of the current wave, the last one explored first. -/
  current : List (Fin n)
  /-- The states of the earlier waves in the order of their exploration, the last wave first. -/
  finished : List (List (Fin n))

namespace Exploration

variable {n h : Nat}

/-- The number of holes of a set that are hidden. -/
def hidden (revealed : Vector (Option Nat) h) (holes : HoleSet h) : Nat :=
  holes.toList.countP fun x => (revealed.get x).isNone

/-- Reveals the hidden holes of a set at a wave. -/
def reveal (wave : Nat) (holes : HoleSet h) (revealed : Vector (Option Nat) h) :
    Vector (Option Nat) h :=
  .ofFn fun x => if (revealed.get x).isNone && decide (x ∈ holes) then some wave else revealed.get x

/-- A set has no hidden holes once they have been revealed. -/
theorem hidden_reveal (wave : Nat) (holes : HoleSet h) (revealed : Vector (Option Nat) h) :
    hidden (reveal wave holes revealed) holes = 0 := by
  rw [hidden, List.countP_eq_zero]
  intro x hx
  have : x ∈ holes := hx
  cases e : revealed.get x <;> simp [reveal, e, this]

/-! ## Counted states -/

/-- The states that have no hidden holes by their counts. -/
def free (counts : List (Fin n × Nat)) : List (Fin n) :=
  (counts.filter (·.2 == 0)).map (·.1)

/-- The states that have hidden holes by their counts. -/
def barred (counts : List (Fin n × Nat)) : List (Fin n × Nat) :=
  counts.filter (·.2 != 0)

theorem mem_free {counts : List (Fin n × Nat)} {s : Fin n} : s ∈ free counts ↔ (s, 0) ∈ counts := by
  simp [free]

theorem length_free_add (counts : List (Fin n × Nat)) :
    (free counts).length + (barred counts).length = counts.length := by
  simp only [free, barred, List.length_map]
  induction counts with
  | nil => rfl
  | cons e rest ih =>
    cases none : e.2 == 0 <;> simp [bne, none] at ih ⊢ <;> omega

/-- The first of the states with the lowest count. -/
def cheapest? : List (Fin n × Nat) → Option (Fin n × Nat)
  | [] => none
  | e :: rest =>
    match cheapest? rest with
    | none => some e
    | some f => if f.2 < e.2 then some f else some e

theorem mem_of_cheapest? {counts : List (Fin n × Nat)} {c : Fin n × Nat}
    (found : cheapest? counts = some c) : c ∈ counts := by
  induction counts generalizing c with
  | nil => simp [cheapest?] at found
  | cons e rest ih =>
    unfold cheapest? at found
    split at found
    · simp_all
    · next f hf =>
      split at found
      · cases found
        exact List.mem_cons_of_mem _ (ih hf)
      · simp_all

/-! ## Steps -/

/-- The blocked states. -/
def waiting (x : Exploration n h) : List (Fin n) :=
  x.blocked.map (·.1)

/-- The blocked state that the next wave is opened for. -/
def candidate? (x : Exploration n h) : Option (Fin n) :=
  (cheapest? x.blocked).map (·.1)

variable (next : Fin n → List (Fin n)) (holes : Fin n → HoleSet h)

/-- States with the numbers of their hidden holes. -/
def count (revealed : Vector (Option Nat) h) (states : List (Fin n)) : List (Fin n × Nat) :=
  states.map fun s => (s, hidden revealed (holes s))

/-- The beginning: only the initial state has been found, and no hole is revealed. -/
def start (initial : Fin n) : Exploration n h :=
  let revealed := Vector.replicate h none
  let counts := count holes revealed [initial]
  { stack := free counts
    blocked := barred counts
    found := (StateSet.empty n).insert initial
    revealed := revealed
    current := []
    finished := [] }

/-- Explores a state, which is taken off the stack.  Of the states that are found, the last one will be
explored next. -/
def visit (x : Exploration n h) (s : Fin n) (stack : List (Fin n)) : Exploration n h :=
  let (new, found) := Graph.fresh x.found (next s)
  let counts := count holes x.revealed new
  { x with
    stack := (free counts).reverse ++ stack
    blocked := x.blocked ++ barred counts
    found := found
    current := s :: x.current }

/-- Starts the wave that reveals the holes of a blocked state.  The hidden holes of all blocked states are
counted again. -/
def openWave (x : Exploration n h) (s : Fin n) : Exploration n h :=
  let finished := x.current.reverse :: x.finished
  let revealed := reveal finished.length (holes s) x.revealed
  let counts := count holes revealed x.waiting
  { x with
    stack := (free counts).reverse
    blocked := barred counts
    revealed := revealed
    current := []
    finished := finished }

/-- The next step, if the search has not ended. -/
def step? (x : Exploration n h) : Option (Exploration n h) :=
  match x.stack with
  | s :: stack => some (x.visit next holes s stack)
  | [] => x.candidate?.map (x.openWave holes)

/-! ## The search ends -/

/-- Twice the states that cannot be explored yet, and once those that can. -/
def potential (x : Exploration n h) : Nat :=
  2 * x.found.absent + 2 * x.blocked.length + x.stack.length

theorem mem_waiting_of_candidate? {x : Exploration n h} {s : Fin n} (e : x.candidate? = some s) :
    s ∈ x.waiting := by
  obtain ⟨c, hc, rfl⟩ := Option.map_eq_some_iff.mp e
  exact List.mem_map_of_mem (mem_of_cheapest? hc)

theorem potential_visit {x : Exploration n h} {s : Fin n} {stack : List (Fin n)}
    (e : x.stack = s :: stack) : (x.visit next holes s stack).potential < x.potential := by
  have new := Graph.absent_fresh x.found (next s)
  have split := length_free_add (count holes x.revealed (Graph.fresh x.found (next s)).1)
  rw [count, List.length_map] at split
  simp only [potential, visit, count, e, List.length_append, List.length_reverse, List.length_cons]
  omega

theorem potential_openWave {x : Exploration n h} {s : Fin n} (e : x.stack = []) (hs : s ∈ x.waiting) :
    (x.openWave holes s).potential < x.potential := by
  let counts := count holes (reveal (x.finished.length + 1) (holes s) x.revealed) x.waiting
  -- The state for which the wave is opened can be explored now.
  have freed : s ∈ free counts := by
    refine mem_free.mpr (List.mem_map.mpr ⟨s, hs, ?_⟩)
    rw [hidden_reveal]
  have pos := List.length_pos_of_mem freed
  have split := length_free_add counts
  have length : counts.length = x.blocked.length := by simp [counts, count, waiting]
  show 2 * x.found.absent + 2 * (barred counts).length + (free counts).reverse.length < _
  simp only [potential, e, List.length_reverse, List.length_nil]
  omega

theorem potential_step {x y : Exploration n h} (e : x.step? next holes = some y) :
    y.potential < x.potential := by
  unfold step? at e
  split at e
  · next hs =>
    cases e
    exact potential_visit next holes hs
  · next hs =>
    obtain ⟨s, hc, rfl⟩ := Option.map_eq_some_iff.mp e
    exact potential_openWave holes hs (mem_waiting_of_candidate? hc)

/-- Takes steps until the search has ended. -/
def run (x : Exploration n h) : Exploration n h :=
  match _e : x.step? next holes with
  | some y => run y
  | none => x
termination_by x.potential
decreasing_by exact potential_step next holes _e

end Exploration

end HoleBlame
