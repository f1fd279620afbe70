/-!
# Results known in advance

What the analysis of a quotient model has shown before any of its chains is looked at: for some states
a bound on the value of the property over all chains of the family, and for some states that they are
targets.  The table grows with the states that are mentioned; beyond it nothing is known.
-/

namespace HoleBlame

/-- What is known of a state of the quotient model. -/
structure Prior (α : Type) where
  /-- A bound on the value of the property. -/
  bound : Option α
  /-- The state is a target. -/
  isTarget : Bool

/-- What is known of the states of a quotient model. -/
structure Priors (α : Type) where
  /-- One entry per state. -/
  entries : Array (Prior α)

namespace Priors

variable {α : Type}

/-- A table that knows nothing of the given number of states. -/
def ofSize (size : Nat) : Priors α :=
  ⟨Array.replicate size ⟨none, false⟩⟩

/-- A table that knows nothing. -/
def unknown : Priors α :=
  ofSize 0

/-- The number of states in the table. -/
def size (t : Priors α) : Nat :=
  t.entries.size

/-- Extends the table to at least the given number of states. -/
def reserve (t : Priors α) (size : Nat) : Priors α :=
  ⟨t.entries ++ Array.replicate (size - t.size) ⟨none, false⟩⟩

/-- Sets the bound of a state. -/
def setBound (t : Priors α) (q : Nat) (bound : α) : Priors α :=
  ⟨(t.reserve (q + 1)).entries.modify q fun p => { p with bound := some bound }⟩

/-- Marks a state as a target. -/
def setTarget (t : Priors α) (q : Nat) : Priors α :=
  ⟨(t.reserve (q + 1)).entries.modify q fun p => { p with isTarget := true }⟩

/-- The bound of a state, if one is known. -/
def bound? (t : Priors α) (q : Nat) : Option α :=
  (t.entries[q]?).bind (·.bound)

/-- The state is known to be a target. -/
def isTarget (t : Priors α) (q : Nat) : Bool :=
  (t.entries[q]?).any (·.isTarget)

/-- The states that are known to be targets, ascending. -/
def targets (t : Priors α) : List Nat :=
  (List.range t.size).filter t.isTarget

end Priors

end HoleBlame
