import HoleBlame.Scalar
import HoleBlame.Labelling
import HoleBlame.Decimal.Notation

/-!
# Markov chains

A discrete-time Markov chain over the states `0, …, n - 1`: an initial state, for every state the list
of its outgoing transitions, a labelling, and at most one named assignment of rewards to states.  The
order of the transitions of a state is kept, and a state may have several transitions to the same
successor.

The type asks for nothing beyond that.  That the probabilities of every state add up to one is what
`Draft.finish` checks of chains that come from outside.
-/

namespace HoleBlame

/-- A transition, seen from its source: the successor and the probability of moving there. -/
structure Edge (α : Type) (n : Nat) where
  /-- The successor. -/
  next : Fin n
  /-- The probability. -/
  prob : α
deriving DecidableEq, BEq

/-- A named assignment of rewards to states. -/
structure RewardModel (α : Type) (n : Nat) where
  /-- The name that properties refer to. -/
  name : String
  /-- The reward of every state. -/
  rewards : Vector α n
deriving DecidableEq, BEq

/-- A discrete-time Markov chain with `n` states. -/
structure Chain (α : Type) (n : Nat) where
  /-- The state in which every run starts. -/
  initial : Fin n
  /-- The outgoing transitions of every state. -/
  rows : Vector (List (Edge α n)) n
  /-- The labels of the states. -/
  labelling : Labelling n
  /-- The rewards, if the chain has any. -/
  reward : Option (RewardModel α n)
deriving DecidableEq, BEq

namespace Chain

variable {α : Type} {n : Nat}

/-- The outgoing transitions of a state. -/
def row (c : Chain α n) (s : Fin n) : List (Edge α n) :=
  c.rows.get s

/-- The successors of a state, repeated as often as there are transitions. -/
def successors (c : Chain α n) (s : Fin n) : List (Fin n) :=
  (c.row s).map (·.next)

/-- The number of transitions of the chain. -/
def numTransitions (c : Chain α n) : Nat :=
  c.rows.toList.flatten.length

/-- The rewards of the given name. -/
def rewardModel? (c : Chain α n) (name : String) : Option (RewardModel α n) :=
  c.reward.filter fun model => model.name = name

/-! ## Reports -/

/-- The size of the chain in one line. -/
def summary (c : Chain α n) : String :=
  s!"Number of states: {n}, number of transitions: {c.numTransitions}"

/-- The line of one state in a listing: number, labels, and reward in brackets. -/
def stateLine (c : Chain Float n) (s : Fin n) : String :=
  let labels := (c.labelling.labelsOf s).map (" " ++ ·)
  let reward := match c.reward with
    | some model => " [" ++ numberText (model.rewards.get s) ++ "]"
    | none => ""
  toString s.val ++ String.join labels ++ reward ++ "\n"

/-- The line of one transition in a listing. -/
def edgeLine (e : Edge Float n) : String :=
  "  -> " ++ toString e.next.val ++ " : " ++ numberText e.prob ++ "\n"

/-- The whole chain, state by state. -/
def listing (c : Chain Float n) : String :=
  let states := (List.finRange n).map fun s =>
    c.stateLine s ++ String.join ((c.row s).map edgeLine)
  "initial state: " ++ toString c.initial.val ++ "\n" ++ String.join states

end Chain

end HoleBlame
