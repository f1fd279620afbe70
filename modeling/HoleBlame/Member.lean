import HoleBlame.Chain

/-!
# Members of a family of chains

Filling every hole of a sketch singles out one chain, a member of the family that the sketch
describes.  A member remembers where its states come from: each is a state of the quotient model, in
which one particular choice has been taken.  Several states of a member may come from one state of the
quotient model.
-/

namespace HoleBlame

/-- A chain with `n` states whose states are traced back to a quotient model. -/
structure Member (α : Type) (n : Nat) where
  /-- The chain. -/
  chain : Chain α n
  /-- The state of the quotient model that a state comes from. -/
  quotientState : Vector Nat n
  /-- The choice of the quotient model that gives a state its transitions. -/
  choice : Vector Nat n

/-- The two maps from a member to its quotient model. -/
inductive Origin where
  | state
  | choice
deriving DecidableEq

/-- Why maps do not trace a chain back to a quotient model. -/
inductive MemberError where
  | incompleteMap (origin : Origin) (found expected : Nat)
deriving DecidableEq

/-- What a map is called. -/
def Origin.name : Origin → String
  | state => "state"
  | choice => "choice"

/-- The wording of an error. -/
def MemberError.message : MemberError → String
  | .incompleteMap origin found expected =>
    "The " ++ origin.name ++ " map covers " ++ toString found ++ " states, but the chain has "
      ++ toString expected ++ " states"

namespace Member

variable {α : Type} {n : Nat}

/-- A chain with the given maps, which must cover every state. -/
def ofMaps? (c : Chain α n) (states choices : Array Nat) : Except MemberError (Member α n) :=
  if hs : states.size = n then
    if hc : choices.size = n then .ok ⟨c, ⟨states, hs⟩, ⟨choices, hc⟩⟩
    else .error (.incompleteMap .choice choices.size n)
  else .error (.incompleteMap .state states.size n)

/-- A chain as its own quotient model, where every state has one choice of its own. -/
def identity (c : Chain α n) : Member α n :=
  ⟨c, .ofFn Fin.val, .ofFn Fin.val⟩

end Member

end HoleBlame
