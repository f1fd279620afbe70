import HoleBlame.Graph
import HoleBlame.Property

/-!
# Checking properties

Which states reach the target with probability zero, and which with probability one, is read off the
graph of the chain (`extremes`).  A property whose threshold is zero or one asks for nothing more, so
it is answered by the set of states that satisfy it.

For any other property the values themselves are approximated from below.  In each round every state
whose value is not known takes the probability-weighted sum of the values its successors had in the
round before, plus its reward (`sweep`); the values of the other states stay as they are.  The rounds
end when no value has changed by more than the precision.
-/

namespace HoleBlame

/-- The answer to a property, for every state of a chain. -/
inductive CheckResult (α : Type) (n : Nat) where
  /-- The states that satisfy the property. -/
  | qualitative (satisfied : StateSet n)
  /-- The value of every state. -/
  | quantitative (values : Vector α n)

namespace CheckResult

variable {α : Type} {n : Nat}

/-- The state satisfies the property with the given bound. -/
def satisfies [Scalar α] (r : CheckResult α n) (s : Fin n) (bound : Bound α) : Bool :=
  match r with
  | qualitative satisfied => s ∈ satisfied
  | quantitative values => bound.holds (values.get s)

/-- The value of a state, if the answer has values. -/
def value? (r : CheckResult α n) (s : Fin n) : Option α :=
  match r with
  | qualitative _ => none
  | quantitative values => some (values.get s)

end CheckResult

/-- Why a property could not be checked. -/
inductive CheckError where
  | unknownLabel (name : String)
  | unknownRewardModel (name : String)
  | noConvergence (limit : Nat)
deriving DecidableEq

/-- The wording of an error. -/
def CheckError.message : CheckError → String
  | .unknownLabel name => "The chain has no label '" ++ name ++ "'"
  | .unknownRewardModel name => "The chain has no reward model '" ++ name ++ "'"
  | .noConvergence limit =>
    "Value iteration did not converge within " ++ toString limit ++ " iterations"

/-- The states that reach a target with probability zero, and those that do so with probability
one. -/
structure Extremes (n : Nat) where
  /-- No path reaches the target through the constraint. -/
  never : StateSet n
  /-- Every run reaches the target through the constraint, up to probability zero. -/
  surely : StateSet n

/-- A checker by value iteration. -/
structure Checker (α : Type) where
  /-- The largest change of a value at which the iteration ends. -/
  precision : α
  /-- The number of rounds after which the iteration is given up. -/
  maxIterations : Nat

namespace Checker

variable {α : Type} {n : Nat}

/-- The checker that is used where nothing else is asked for. -/
def standard : Checker Float :=
  ⟨1e-8, 1000000⟩

/-- Finds the states with probability zero and one.  A state that is no target and lies outside the
constraint never reaches the target; a state surely reaches it if it cannot get to a state that never
does, without meeting the target first. -/
def extremes (c : Chain α n) (constraint : Option (StateSet n)) (target : StateSet n) : Extremes n :=
  let table := Graph.predecessors c
  let allowed (s : Fin n) : Bool :=
    match constraint with
    | none => true
    | some states => s ∈ states
  let never := (Graph.backward table target allowed).compl
  let unsure := Graph.backward table never fun s => allowed s && !decide (s ∈ target)
  ⟨never, unsure.compl⟩

variable [Scalar α]

/-- The larger of two numbers; the first one if the second is undefined. -/
def larger (x y : α) : α :=
  if x < y then y else x

/-- The value a state takes from the values of its successors. -/
@[specialize] def update (c : Chain α n) (reward : Fin n → α) (values : Vector α n) (s : Fin n) : α :=
  reward s + Scalar.sumOver (c.row s) fun e => e.prob * values.get e.next

/-- One round over some states: their new values go into a second table, together with the largest
change so far.  Equal values count as unchanged even where their difference is undefined. -/
@[specialize] def sweep (c : Chain α n) (reward : Fin n → α) (values : Vector α n)
    (states : List (Fin n)) (next : Vector α n) : Vector α n × α :=
  states.foldl
    (fun (next, change) s =>
      let value := update c reward values s
      (assign next s value,
        if value == values.get s then change else larger change (Scalar.abs (value - values.get s))))
    (next, 0)

/-- Repeats rounds over some states until no value changes by more than the precision.  Two tables of
values take turns: a round reads the one and writes the other.  The first argument counts the rounds
that are left. -/
@[specialize] def iterate (k : Checker α) (c : Chain α n) (reward : Fin n → α) (states : List (Fin n)) :
    Nat → Vector α n → Vector α n → Option (Vector α n)
  | 0, _, _ => none
  | rounds + 1, values, next =>
    let (next, change) := sweep c reward values states next
    if change ≤ k.precision then some next else iterate k c reward states rounds next values

/-- The values of a chain by iteration over some states, from given first values. -/
@[specialize] def values (k : Checker α) (c : Chain α n) (reward : Fin n → α) (states : StateSet n)
    (first : Vector α n) : Except CheckError (CheckResult α n) :=
  match iterate k c reward states.toList k.maxIterations first first with
  | some values => .ok (.quantitative values)
  | none => .error (.noConvergence k.maxIterations)

/-- The set of a label. -/
def label (c : Chain α n) (name : String) : Except CheckError (StateSet n) :=
  match c.labelling.get? name with
  | some states => .ok states
  | none => .error (.unknownLabel name)

/-- The set of an optional label. -/
def label? (c : Chain α n) : Option String → Except CheckError (Option (StateSet n))
  | none => .ok none
  | some name => (label c name).map some

/-- Checks a property in every state of a chain. -/
@[specialize] def check (k : Checker α) (c : Chain α n) (p : Property α) : Except CheckError (CheckResult α n) :=
  match p.formula with
  | .probability constraint target => do
    let target ← label c target
    let constraint ← label? c constraint
    let e := extremes c constraint target
    if p.bound.threshold == 0 || p.bound.threshold == 1 then
      -- Any value strictly between zero and one stands for all of them.
      .ok (.qualitative (.ofFn fun s =>
        p.bound.holds (if s ∈ e.never then 0 else if s ∈ e.surely then 1 else Scalar.half)))
    else
      k.values c (fun _ => 0) (e.never.union e.surely).compl
        (.ofFn fun s => if s ∈ e.surely then 1 else 0)
  | .reward model target => do
    let target ← label c target
    match c.rewardModel? model with
    | none => .error (.unknownRewardModel model)
    | some model =>
      let e := extremes c none target
      -- A run that may miss the target collects rewards for ever.
      k.values c (fun s => model.rewards.get s) (e.surely.inter target.compl)
        (.ofFn fun s => if s ∈ e.surely then 0 else Scalar.infinity)

end Checker

end HoleBlame
