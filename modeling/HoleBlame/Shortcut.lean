import HoleBlame.Checker
import HoleBlame.Member
import HoleBlame.Priors

/-!
# Shortened chains

A shortened chain stands for a member of which only some states have been expanded.  It has the states
of the member and two sinks behind them.  An expanded state has its transitions in the member.  Any
other state takes a shortcut instead:

* for a probability, it moves to the sink that counts as target with the probability that is known as
  its bound, and to the other sink with the remaining one;
* for an expected reward, it collects what is known as its bound and moves to the sink that counts as
  target.

Where no bound is known, the one that is trivially right takes its place: zero for properties that
bound from above, and one or infinity for properties that bound from below.  So a shortened chain
that violates a property speaks for every chain in which the expanded states look the same.
-/

namespace HoleBlame

/-- A member with `n` states of which some are expanded. -/
structure Shortcut (α : Type) (n : Nat) where
  /-- The chain of the member. -/
  source : Chain α n
  /-- The property to be checked on the shortened chain. -/
  property : Property α
  /-- The shortened chain. -/
  chain : Chain α (n + 2)
  /-- The states that are expanded. -/
  expanded : StateSet n
  /-- Their number. -/
  numExpanded : Nat
  /-- The number of transitions of the shortened chain. -/
  numTransitions : Nat

/-- What a bound is a bound on. -/
inductive BoundKind where
  | probability
  | reward
deriving DecidableEq

/-- Why a member cannot be shortened. -/
inductive ShortcutError (α : Type) where
  | unknownLabel (name : String)
  | unknownRewardModel (name : String)
  | invalidBound (state : Nat) (bound : α) (kind : BoundKind)

/-- What a bounded value is called. -/
def BoundKind.name : BoundKind → String
  | probability => "probability"
  | reward => "expected reward"

/-- The wording of an error. -/
def ShortcutError.message : ShortcutError Float → String
  | .unknownLabel name => "The chain has no label '" ++ name ++ "'"
  | .unknownRewardModel name => "The chain has no reward model '" ++ name ++ "'"
  | .invalidBound state bound kind =>
    "Quotient state " ++ toString state ++ " has bound " ++ numberText bound
      ++ ", which is not a valid " ++ kind.name

namespace BoundKind

variable {α : Type} [Scalar α]

/-- The bound makes sense: a probability is finite, and a reward is not negative. -/
def accepts (kind : BoundKind) (bound : α) : Bool :=
  match kind with
  | probability => Scalar.isFinite bound
  | reward => !Scalar.isNaN bound && !decide (bound < 0)

/-- The bound as it is used: a probability is moved into the unit interval. -/
def adjust (kind : BoundKind) (bound : α) : α :=
  match kind with
  | probability => Scalar.clampUnit bound
  | reward => bound

/-- The bound that is right whatever the chain looks like. -/
def trivial (kind : BoundKind) (safety : Bool) : α :=
  if safety then 0
  else
    match kind with
    | probability => 1
    | reward => Scalar.infinity

end BoundKind

namespace Shortcut

/-! ## The states of a shortened chain -/

/-- The label of the states that count as target. -/
def targetLabel : String := "shortcut_target"

/-- The label of the sink for runs that miss the target. -/
def sinkFalseLabel : String := "sink_false"

/-- The label of the sink for runs that reach the target. -/
def sinkTrueLabel : String := "sink_true"

/-- A state of the member in the shortened chain. -/
def lift {n : Nat} (s : Fin n) : Fin (n + 2) :=
  s.castAdd 2

/-- The sink for runs that miss the target. -/
def sinkFalse (n : Nat) : Fin (n + 2) :=
  ⟨n, by omega⟩

/-- The sink for runs that reach the target. -/
def sinkTrue (n : Nat) : Fin (n + 2) :=
  ⟨n + 1, by omega⟩

variable {α : Type} {n : Nat} [Scalar α]

/-! ## The beginning -/

/-- The transitions of a state that has not been expanded.  Transitions of probability zero are left
out. -/
def detour (kind : BoundKind) (bound : α) : List (Edge α (n + 2)) :=
  match kind with
  | .probability =>
    (if bound < 1 then [⟨sinkFalse n, 1 - bound⟩] else [])
      ++ if 0 < bound then [⟨sinkTrue n, bound⟩] else []
  | .reward => [⟨sinkTrue n, 1⟩]

/-- The transitions of the sinks, which are never left. -/
def sinkRows (n : Nat) : Vector (List (Edge α (n + 2))) 2 :=
  #v[[⟨sinkFalse n, 1⟩], [⟨sinkTrue n, 1⟩]]

/-- The rewards of the sinks. -/
def sinkRewards : Vector α 2 :=
  #v[0, 0]

/-- The first state whose bound makes no sense, by its number in the quotient model. -/
def refused? (m : Member α n) (priors : Priors α) (kind : BoundKind) : Option (Nat × α) :=
  m.quotientState.toList.findSome? fun q =>
    ((priors.bound? q).filter fun bound => !kind.accepts bound).map fun bound => (q, bound)

/-- The bounds of all states. -/
def bounds (m : Member α n) (priors : Priors α) (kind : BoundKind) (safety : Bool) : Vector α n :=
  m.quotientState.map fun q => ((priors.bound? q).map kind.adjust).getD (kind.trivial safety)

/-- The states that count as target: the targets of the member, those that are known to be targets of
the quotient model, and a sink. -/
def targets (m : Member α n) (priors : Priors α) (target : StateSet n) : StateSet (n + 2) :=
  (target.union (.ofFn fun s => priors.isTarget (m.quotientState.get s))).widen (n + 2)
    |>.insert (sinkTrue n)

/-- The labels of the member, those of the sinks, and the label of the states that count as target. -/
def labelling (m : Member α n) (priors : Priors α) (target : StateSet n) : Labelling (n + 2) :=
  m.chain.labelling.widen (n + 2)
    |>.add (sinkFalse n) sinkFalseLabel
    |>.add (sinkTrue n) sinkTrueLabel
    |>.set targetLabel (targets m priors target)

/-- The shortened chain of a member none of whose states is expanded. -/
def unexpanded (m : Member α n) (priors : Priors α) (p : Property α) (target : StateSet n)
    (kind : BoundKind) (model : Option String) : Except (ShortcutError α) (Shortcut α n) :=
  match refused? m priors kind with
  | some (q, bound) => .error (.invalidBound q bound kind)
  | none =>
    let bounds := bounds m priors kind p.isSafety
    let chain : Chain α (n + 2) :=
      { initial := lift m.chain.initial
        rows := (bounds.map (detour kind)).append (sinkRows n)
        labelling := labelling m priors target
        reward := model.map fun name => ⟨name, bounds.append sinkRewards⟩ }
    .ok
      { source := m.chain
        property := p.withTarget targetLabel
        chain := chain
        expanded := .empty n
        numExpanded := 0
        numTransitions := chain.numTransitions }

/-- Shortens a member for a property.  The labels and the reward model of the property have to exist
in the member, and then all bounds that are known have to make sense. -/
def ofMember (m : Member α n) (priors : Priors α) (p : Property α) :
    Except (ShortcutError α) (Shortcut α n) :=
  match m.chain.labelling.get? p.formula.target with
  | none => .error (.unknownLabel p.formula.target)
  | some target =>
    match p.formula with
    | .probability none _ => unexpanded m priors p target .probability none
    | .probability (some constraint) _ =>
      if (m.chain.labelling.get? constraint).isNone then .error (.unknownLabel constraint)
      else unexpanded m priors p target .probability none
    | .reward model _ =>
      if (m.chain.rewardModel? model).isNone then .error (.unknownRewardModel model)
      else unexpanded m priors p target .reward (some model)

/-! ## Expanding -/

/-- The transitions of a state in the member. -/
def exactRow (c : Chain α n) (s : Fin n) : List (Edge α (n + 2)) :=
  (c.row s).map fun e => ⟨lift e.next, e.prob⟩

/-- Gives a state its reward in the member. -/
def exactReward (c : Chain α n) (s : Fin n) (model : RewardModel α (n + 2)) : RewardModel α (n + 2) :=
  let reward := (c.rewardModel? model.name).elim 0 fun exact => exact.rewards.get s
  { model with rewards := assign model.rewards (lift s) reward }

/-- Expands a state, unless it is expanded already. -/
def expandState (x : Shortcut α n) (s : Fin n) : Shortcut α n :=
  if s ∈ x.expanded then x
  else
    let row := exactRow x.source s
    { x with
      chain :=
        { x.chain with
          rows := assign x.chain.rows (lift s) row
          reward := x.chain.reward.map (exactReward x.source s) }
      expanded := x.expanded.insert s
      numExpanded := x.numExpanded + 1
      numTransitions := x.numTransitions - (x.chain.row (lift s)).length + row.length }

/-- Expands states one after the other. -/
def expand (x : Shortcut α n) (states : List (Fin n)) : Shortcut α n :=
  states.foldl expandState x

end Shortcut

end HoleBlame
