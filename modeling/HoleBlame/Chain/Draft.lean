import HoleBlame.Chain
import HoleBlame.Sorting

/-!
# Chains under construction

A chain is described by facts, one after the other: a transition, a label, a reward, or that there are
at least so many states.  The facts may mention states in any order.  A `Draft` is what they have come to so
far; it has exactly the states up to the largest one that has been mentioned or asked for, and it grows when
a fact calls for more (`Draft.require`).  The labels grow with it.  The rewards, of which there are none
before the first one is stated, catch up when the next one is stated, and at last when the draft is finished
(`PartialRewards.resized`).

`Draft.finish` turns a draft into a chain if it is one.  A single pass over the transitions checks their
probabilities, counts the transitions of every state and adds up their probabilities (`Draft.Tally`), and
from the counts the transitions are sorted by their states.
-/

namespace HoleBlame

/-- A statement about a chain under construction. -/
inductive Fact where
  /-- There are at least this many states. -/
  | states (count : Nat)
  /-- A transition with its probability. -/
  | transition (source : Nat) (prob : Float) (target : Nat)
  /-- The label exists, even if no state carries it. -/
  | named (label : String)
  /-- The state carries the label. -/
  | labelled (state : Nat) (label : String)
  /-- The state has the reward in the named model. -/
  | reward (model : String) (state : Nat) (value : Float)

namespace Fact

/-- The number of states that a fact calls for. -/
def size : Fact → Nat
  | states count => count
  | transition source _ target => max source target + 1
  | named _ => 0
  | labelled state _ => state + 1
  | reward _ state _ => state + 1

/-- The reward model that a fact speaks of. -/
def model? : Fact → Option String
  | reward model _ _ => some model
  | _ => none

end Fact

/-- Why facts do not describe a chain. -/
inductive ChainError where
  | initialOutOfBounds (state size : Nat)
  | invalidProbability (source target : Nat) (prob : Float)
  | notStochastic (state : Nat) (sum : Float)

/-- The wording of an error. -/
def ChainError.message : ChainError → String
  | .initialOutOfBounds state size =>
    "Initial state " ++ toString state ++ " is out of bounds for " ++ toString size ++ " states"
  | .invalidProbability source target prob =>
    "Transition " ++ toString source ++ " -> " ++ toString target ++ " has invalid probability "
      ++ numberText prob
  | .notStochastic state sum =>
    "The outgoing probabilities of state " ++ toString state ++ " sum up to " ++ numberText sum
      ++ " instead of one"

/-- The largest deviation from one that the probabilities of a state may add up to. -/
def stochasticTolerance : Float := 1e-6

/-! ## Rewards of a growing chain -/

/-- Rewards of the first states of a chain with `n` states; the rewards of the others are zero. -/
structure PartialRewards (n : Nat) where
  /-- The name of the reward model. -/
  name : String
  /-- The rewards, from state zero on. -/
  values : Array Float
  /-- There are no more rewards than states. -/
  fits : values.size ≤ n

namespace PartialRewards

variable {n m : Nat}

/-- All rewards are zero. -/
def zeros (name : String) (n : Nat) : PartialRewards n :=
  ⟨name, .replicate n 0, Nat.le_of_eq Array.size_replicate⟩

/-- The same rewards in a larger chain. -/
def widen (r : PartialRewards n) (h : n ≤ m) : PartialRewards m :=
  ⟨r.name, r.values, Nat.le_trans r.fits h⟩

/-- The rewards of all states. -/
def resized (r : PartialRewards n) : Vector Float n :=
  ⟨r.values ++ .replicate (n - r.values.size) 0, by
    rw [Array.size_append, Array.size_replicate, Nat.add_sub_cancel' r.fits]⟩

/-- Sets the reward of a state. -/
def set (r : PartialRewards n) (s : Fin n) (value : Float) : PartialRewards n :=
  ⟨r.name, (assign r.resized s value).toArray, Nat.le_of_eq (Vector.size_toArray _)⟩

end PartialRewards

/-! ## Drafts -/

/-- A transition as it was stated. -/
structure Transition where
  source : Nat
  prob : Float
  target : Nat

/-- A chain under construction. -/
structure Draft where
  /-- The number of states. -/
  size : Nat
  /-- The transitions in the order in which they were stated. -/
  transitions : Array Transition
  /-- The labels. -/
  labels : Labelling size
  /-- The rewards, if one has been stated. -/
  rewards : Option (PartialRewards size)
  /-- The transitions lead from states to states. -/
  inside : ∀ t ∈ transitions.toList, t.source < size ∧ t.target < size

namespace Draft

/-- A draft of a chain with the given number of states, about which nothing has been stated. -/
def ofSize (count : Nat) : Draft :=
  ⟨count, #[], .empty count, none, by rintro _ ⟨⟩⟩

/-- The name of the reward model, which the first reward decides. -/
def model? (d : Draft) : Option String :=
  d.rewards.map (·.name)

/-- The number of transitions stated so far. -/
def numTransitions (d : Draft) : Nat :=
  d.transitions.size

/-- Makes sure that there are at least so many states. -/
def require (d : Draft) (count : Nat) : Draft :=
  if h : d.size < count then
    { size := count
      transitions := d.transitions
      labels := d.labels.widen count
      rewards := d.rewards.map (·.widen (Nat.le_of_lt h))
      inside := fun t ht => (d.inside t ht).imp (Nat.lt_trans · h) (Nat.lt_trans · h) }
  else d

theorem size_require (d : Draft) (count : Nat) : (d.require count).size = max d.size count := by
  unfold require
  split
  · next h => exact (Nat.max_eq_right (Nat.le_of_lt h)).symm
  · next h => exact (Nat.max_eq_left (Nat.le_of_not_lt h)).symm

/-- Adds what a fact says to a draft that has the states it calls for. -/
def record (d : Draft) (fact : Fact) (fits : fact.size ≤ d.size) : Draft :=
  match fact with
  | .states _ => d
  | .transition source prob target =>
    { d with
      transitions := d.transitions.push ⟨source, prob, target⟩
      inside := by
        intro t ht
        rw [Array.toList_push, List.mem_append, List.mem_singleton] at ht
        obtain ht | rfl := ht
        · exact d.inside t ht
        · exact Nat.max_lt.mp fits }
  | .named label => { d with labels := d.labels.introduce label }
  | .labelled state label => { d with labels := d.labels.add ⟨state, fits⟩ label }
  | .reward model state value =>
    { d with rewards := some ((d.rewards.getD (.zeros model d.size)).set ⟨state, fits⟩ value) }

/-- States a further fact. -/
def state (d : Draft) (fact : Fact) : Draft :=
  (d.require fact.size).record fact (by rw [size_require]; exact Nat.le_max_right _ _)

/-- States a further fact, unless it gives a reward in a second model. -/
def state? (d : Draft) (fact : Fact) : Option Draft :=
  match d.model?, fact.model? with
  | some model, some other => if model = other then some (d.state fact) else none
  | _, _ => some (d.state fact)

/-! ## From a draft to a chain -/

/-- A probability in the open interval from zero, up to one and the tolerance. -/
def validProbability (p : Float) : Bool :=
  0 < p && p ≤ 1 + stochasticTolerance

/-- The sum of a row is too far from one. -/
def isOff (sum : Float) : Bool :=
  stochasticTolerance < (sum - 1).abs

/-- The transitions, each with the state that it leads from. -/
def outgoing (d : Draft) : List (Fin d.size × Edge Float d.size) :=
  d.transitions.toList.pmap
    (fun t (inside : t.source < d.size ∧ t.target < d.size) =>
      (⟨t.source, inside.1⟩, ⟨⟨t.target, inside.2⟩, t.prob⟩)) d.inside

/-- What is known of the transitions that have been looked at. -/
structure Tally (n : Nat) where
  /-- How many lead from every state. -/
  counts : Vector Nat (n + 1)
  /-- What the probabilities of every state add up to, from the first to the last. -/
  sums : Vector Float n

namespace Tally

variable {n : Nat}

/-- No transition has been looked at. -/
def empty (n : Nat) : Tally n :=
  ⟨.replicate (n + 1) 0, .replicate n 0⟩

/-- Counts a further transition and adds its probability. -/
def add (t : Tally n) (e : Fin n × Edge Float n) : Tally n :=
  ⟨Sorting.count t.counts e, assign t.sums e.1 (t.sums.get e.1 + e.2.prob)⟩

/-- Looks at a further transition, whose probability is checked. -/
def check (t : Tally n) (e : Fin n × Edge Float n) : Except ChainError (Tally n) :=
  if validProbability e.2.prob then .ok (t.add e)
  else .error (.invalidProbability e.1 e.2.next e.2.prob)

end Tally

/-- The chain of a draft, with the given initial state.  The initial state is checked first, then every
probability in the order of the transitions, then the sums in the order of the states. -/
def finish (d : Draft) (initial : Nat) : Except ChainError ((n : Nat) × Chain Float n) :=
  if h : initial < d.size then
    let outgoing := d.outgoing
    match outgoing.foldlM Tally.check (.empty d.size) with
    | .error e => .error e
    | .ok tally =>
      match (List.finRange d.size).find? fun s => isOff (tally.sums.get s) with
      | some s => .error (.notStochastic s (tally.sums.get s))
      | none =>
        let room := Array.replicate d.numTransitions ⟨⟨0, Nat.zero_lt_of_lt h⟩, 0⟩
        let rows := ((Sorting.Shelf.ofTable room tally.counts).fill outgoing).rows
        .ok ⟨d.size, ⟨initial, h⟩, rows, d.labels, d.rewards.map fun r => ⟨r.name, r.resized⟩⟩
  else .error (.initialOutOfBounds initial d.size)

end Draft

end HoleBlame
