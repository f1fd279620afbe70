import HoleBlame.Graph
import HoleBlame.HoleTable
import HoleBlame.Member
import HoleBlame.Random

/-!
# Sketches

A sketch in which every hole has two options.  A state of the quotient model is controlled by some
holes and has two choices; the choice that is taken is the sum of the values of its holes, modulo two.
So a choice depends on exactly the holes that control its state.

`Sketch.resolve` is the member that results when the holes are filled.  It consists of the states that can
be reached, numbered in the order in which a search level by level meets them.  `Sketch.resolve?` builds it
state by state: a state gets its number when it is met first (`Resolution.meet`), and its choice is recorded
when its turn comes (`Resolution.visit?`).  Every state is visited at most once, so this ends.
-/

namespace HoleBlame

/-- A choice of a quotient model with `n` states. -/
structure SketchChoice (α : Type) (n : Nat) where
  /-- The transitions. -/
  row : List (Edge α n)
  /-- The reward that is collected. -/
  reward : α

/-- A state of the quotient model of a sketch. -/
structure SketchState (α : Type) (n h : Nat) where
  /-- The holes that control the state. -/
  controllers : HoleSet h
  /-- The state is a target. -/
  isTarget : Bool
  /-- The choice for either option. -/
  choices : Vector (SketchChoice α n) 2

/-- A sketch with `h` holes whose quotient model has `n` states. -/
structure Sketch (α : Type) (n h : Nat) where
  /-- The states of the quotient model. -/
  states : Vector (SketchState α n h) n

namespace Sketch

variable {α : Type} {n h : Nat}

/-- The holes of every choice; the choices of a state follow one another. -/
def table (k : Sketch α n h) : HoleTable h :=
  .ofSets (k.states.toList.flatMap fun q => [q.controllers, q.controllers])

/-! ## Filling the holes -/

/-- The option that is taken in a state. -/
def option (k : Sketch α n h) (values : Vector Nat h) (q : Fin n) : Fin 2 :=
  .ofNat 2 ((k.states.get q).controllers.toList.foldl (fun sum x => sum + values.get x) 0)

/-- The choice that is taken in a state. -/
def choice (k : Sketch α n h) (values : Vector Nat h) (q : Fin n) : SketchChoice α n :=
  (k.states.get q).choices.get (k.option values q)

/-- The successors of a state once the holes are filled. -/
def successors (k : Sketch α n h) (values : Vector Nat h) (q : Fin n) : List (Fin n) :=
  (k.choice values q).row.map (·.next)

/-- The states that can be reached once the holes are filled. -/
def order (k : Sketch α n h) (values : Vector Nat h) (initial : Fin n) : List (Fin n) :=
  Graph.closure (k.successors values) [initial]

theorem idxOf_successor_lt {k : Sketch α n h} {values : Vector Nat h} {initial q : Fin n}
    {e : Edge α n} (hq : q ∈ k.order values initial) (he : e ∈ (k.choice values q).row) :
    (k.order values initial).idxOf e.next < (k.order values initial).length :=
  List.idxOf_lt_length_of_mem (Graph.next_mem_closure hq (List.mem_map_of_mem he))

/-- The transitions of a state that can be reached, between the numbers of such states. -/
def rowOf (k : Sketch α n h) (values : Vector Nat h) (initial q : Fin n)
    (hq : q ∈ k.order values initial) : List (Edge α (k.order values initial).length) :=
  (k.choice values q).row.attach.map fun e =>
    ⟨⟨(k.order values initial).idxOf e.1.next, idxOf_successor_lt hq e.2⟩, e.1.prob⟩

/-- The chain that results when the holes are filled. -/
def chain (k : Sketch α n h) (values : Vector Nat h) (initial : Fin n) :
    Chain α (k.order values initial).length :=
  let order := k.order values initial
  { initial := ⟨0, List.length_pos_of_mem (Graph.subset_closure (List.mem_singleton_self initial))⟩
    rows := .ofFn fun s => k.rowOf values initial (order.get s) (List.get_mem order s)
    labelling := (Labelling.empty _).set randomTarget (.ofFn fun s => (k.states.get (order.get s)).isTarget)
    reward := some ⟨randomModel, .ofFn fun s => (k.choice values (order.get s)).reward⟩ }

/-- The member that results when the holes are filled. -/
def resolve (k : Sketch α n h) (values : Vector Nat h) (initial : Fin n) :
    Member α (k.order values initial).length :=
  let order := k.order values initial
  { chain := k.chain values initial
    quotientState := .ofFn fun s => (order.get s).val
    choice := .ofFn fun s => 2 * (order.get s).val + (k.option values (order.get s)).val }

end Sketch

/-! ## Filling the holes state by state -/

/-- What has been done so far when the holes are filled. -/
structure Resolution (n : Nat) where
  /-- The numbers of the states that have been met. -/
  numbers : Vector (Option Nat) n
  /-- The states that have been met, in the order of their numbers. -/
  states : Array (Fin n)
  /-- The choices of the states that have been visited. -/
  choices : Array Nat
  /-- The states that wait to be visited. -/
  queue : List (Fin n)
  /-- What has been stated about the chain. -/
  draft : Draft

namespace Resolution

variable {n h : Nat} {x y : Resolution n}

/-- The initial state has been met. -/
def start (initial : Fin n) : Resolution n :=
  { numbers := assign (.replicate n none) initial (some 0)
    states := #[initial]
    choices := #[]
    queue := [initial]
    draft := (Draft.ofSize 1).state (.named randomTarget) }

/-- Meets a state.  A new one gets the next number, and waits. -/
def meet (x : Resolution n) (s : Fin n) : Nat × Resolution n :=
  match x.numbers.get s with
  | some number => (number, x)
  | none =>
    (x.states.size,
      { x with
        numbers := assign x.numbers s (some x.states.size)
        states := x.states.push s
        queue := x.queue ++ [s] })

/-- Adds a transition of the state with the given number. -/
def move (source : Nat) (x : Resolution n) (e : Edge Float n) : Resolution n :=
  let (target, y) := x.meet e.next
  { y with draft := y.draft.state (.transition source e.prob target) }

/-- States the label and the reward of the state with the given number. -/
def describe? (k : Sketch Float n h) (values : Vector Nat h) (q : Fin n) (number : Nat) (d : Draft) :
    Option Draft :=
  let marked := if (k.states.get q).isTarget then d.state (.labelled number randomTarget) else d
  marked.state? (.reward randomModel number (k.choice values q).reward)

/-- Visits a state, which has been met. -/
def visit? (k : Sketch Float n h) (values : Vector Nat h) (x : Resolution n) (q : Fin n) :
    Option (Resolution n) :=
  match x.numbers.get q with
  | none => none
  | some number =>
    (describe? k values q number x.draft).map fun draft =>
      (k.choice values q).row.foldl (move number)
        { x with choices := x.choices.push (2 * q.val + (k.option values q).val), draft }

/-- The states that have been met. -/
def seen (x : Resolution n) : StateSet n :=
  .ofFn fun s => (x.numbers.get s).isSome

/-- How many states have not been visited. -/
def unvisited (x : Resolution n) : Nat :=
  x.seen.absent + x.queue.length

theorem seen_assign (x : Resolution n) (s : Fin n) (number : Nat) (states : Array (Fin n))
    (queue : List (Fin n)) :
    ({ x with numbers := assign x.numbers s (some number), states, queue } : Resolution n).seen =
      x.seen.insert s := by
  refine StateSet.ext fun t => ?_
  simp only [seen, StateSet.mem_ofFn, StateSet.mem_insert, get_assign]
  by_cases same : t = s <;> simp [same]

theorem unvisited_meet (x : Resolution n) (s : Fin n) : (x.meet s).2.unvisited = x.unvisited := by
  unfold meet
  split
  · rfl
  · next unmet =>
    have outside : s ∉ x.seen := by simp [seen, unmet]
    have := StateSet.absent_insert outside
    simp only [unvisited, seen_assign, List.length_append, List.length_singleton]
    omega

theorem unvisited_foldl_move (source : Nat) (row : List (Edge Float n)) (x : Resolution n) :
    (row.foldl (move source) x).unvisited = x.unvisited := by
  induction row generalizing x with
  | nil => rfl
  | cons e rest ih => exact (ih _).trans (unvisited_meet x e.next)

theorem unvisited_visit? {k : Sketch Float n h} {values : Vector Nat h} {q : Fin n}
    (visited : visit? k values x q = some y) : y.unvisited = x.unvisited := by
  unfold visit? at visited
  split at visited
  · cases visited
  · obtain ⟨draft, -, rfl⟩ := Option.map_eq_some_iff.mp visited
    exact unvisited_foldl_move _ _ _

/-- Visits states as long as some wait. -/
def run? (k : Sketch Float n h) (values : Vector Nat h) (x : Resolution n) : Option (Resolution n) :=
  match _h : x.queue with
  | [] => some x
  | q :: rest =>
    match _visited : visit? k values { x with queue := rest } q with
    | none => none
    | some y => run? k values y
termination_by x.unvisited
decreasing_by
  have := unvisited_visit? _visited
  simp only [unvisited, seen, _h, List.length_cons] at this ⊢
  omega

end Resolution

namespace Sketch

variable {α : Type} {n h : Nat}

/-- Fills the holes state by state. -/
def resolve? (k : Sketch Float n h) (values : Vector Nat h) (initial : Fin n) :
    Option ((m : Nat) × Member Float m) := do
  let x ← (Resolution.start initial).run? k values
  let ⟨m, c⟩ ← (x.draft.finish 0).toOption
  let member ← (Member.ofMaps? c (x.states.map (·.val)) x.choices).toOption
  return ⟨m, member⟩

/-- All ways to fill the holes.  The first hole changes fastest. -/
def assignments (h : Nat) : List (Vector Nat h) :=
  (List.range (Nat.pow 2 h)).map fun number => .ofFn fun x => number / Nat.pow 2 x.val % 2

/-! ## Random sketches -/

/-- A state among the first `n` by its number, which is below `n`. -/
def stateOf (n : Nat) (hn : 0 < n) (number : Nat) : Fin n :=
  ⟨number % n, Nat.mod_lt number hn⟩

/-- A random choice. -/
def drawChoice (n : Nat) (hn : 0 < n) (outdegree : Nat) : Draw (SketchChoice Float n) := do
  let successors ← Draw.successors n outdegree
  let reward ← Draw.reward
  return ⟨successors.map fun (target, prob) => ⟨stateOf n hn target, prob⟩, reward⟩

/-- A random state, which is controlled by up to two holes. -/
def drawState (n h : Nat) (hn : 0 < n) (outdegree : Nat) : Draw (SketchState Float n h) := do
  let count ← if h = 0 then pure 0 else Draw.below 3
  let controllers ← Draw.some count h
  let isTarget ← Draw.coin 0.2
  let first ← drawChoice n hn outdegree
  let second ← drawChoice n hn outdegree
  return ⟨.ofList (HoleTable.within h controllers), isTarget, #v[first, second]⟩

/-- A random sketch.  About a fifth of its states are targets. -/
def draw (n h : Nat) (hn : 0 < n) (outdegree : Nat) : Draw (Sketch Float n h) := do
  let states ← (Vector.range n).mapM fun _ => drawState n h hn outdegree
  return ⟨states⟩

/-- A random way to fill the holes. -/
def drawValues (h : Nat) : Draw (Vector Nat h) :=
  (Vector.range h).mapM fun _ => Draw.below 2

end Sketch

end HoleBlame
