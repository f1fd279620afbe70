import HoleBlame.Annotated
import HoleBlame.Waves.Exploration

/-!
# Waves

The reachable states of a member, in the order in which they can be explored when its holes are
revealed step by step.  Wave zero is what can be explored with all holes hidden; it may be empty.
Every later wave starts by revealing some holes and contains the states that can be explored then.

The holes revealed up to a wave are all that the states explored so far depend on, and so they are
critical (`Waves.criticalHoles`) for whatever can be seen in these states.
-/

namespace HoleBlame

/-- The waves of a member with `n` states whose transitions depend on `h` holes. -/
structure Waves (n h : Nat) where
  /-- The states of every wave, in the order in which they are explored. -/
  states : List (List (Fin n))
  /-- The wave at which a hole is revealed; a hole that no reachable state depends on has none. -/
  revealed : Vector (Option Nat) h

/-- Why a member has no waves. -/
inductive WavesError where
  | choiceOutOfBounds (state choice size : Nat)
deriving DecidableEq

/-- The wording of an error. -/
def WavesError.message : WavesError → String
  | .choiceOutOfBounds state choice size =>
    "State " ++ toString state ++ " has choice " ++ toString choice
      ++ ", but the quotient model has only " ++ toString size ++ " choices"

/-- The holes that the transitions of a state depend on. -/
def Annotated.holes {α : Type} {n h : Nat} (a : Annotated α n h) (s : Fin n) : HoleSet h :=
  a.table.holes (a.member.choice.get s)

namespace Waves

variable {α : Type} {n h : Nat}

/-- The waves of an exploration that has ended. -/
def ofExploration (x : Exploration n h) : Waves n h :=
  ⟨(x.current.reverse :: x.finished).reverse, x.revealed⟩

/-- The waves of a chain whose states depend on the given holes. -/
def explore (c : Chain α n) (holes : Fin n → HoleSet h) : Waves n h :=
  ofExploration ((Exploration.start holes c.initial).run c.successors holes)

/-- The waves of a member.  The choices of all its states have to be in the table, also those of
states that cannot be reached. -/
def ofAnnotated (a : Annotated α n h) : Except WavesError (Waves n h) :=
  match (List.finRange n).find? fun s => a.table.numChoices ≤ a.member.choice.get s with
  | some s => .error (.choiceOutOfBounds s (a.member.choice.get s) a.table.numChoices)
  | none => .ok (explore a.member.chain a.holes)

/-- The number of waves, which is at least one. -/
def count (w : Waves n h) : Nat :=
  w.states.length

/-- The last wave. -/
def last (w : Waves n h) : Nat :=
  w.count - 1

/-- The number of states in all waves. -/
def numStates (w : Waves n h) : Nat :=
  w.states.flatten.length

/-- The holes that are revealed at a wave. -/
def revealedAt (w : Waves n h) (wave : Nat) : HoleSet h :=
  .ofFn fun x => w.revealed.get x == some wave

/-- The holes that are never revealed. -/
def neverRevealed (w : Waves n h) : HoleSet h :=
  .ofFn fun x => (w.revealed.get x).isNone

/-- The holes that are revealed up to a wave. -/
def criticalHoles (w : Waves n h) (wave : Nat) : HoleSet h :=
  .ofFn fun x => (w.revealed.get x).any (· ≤ wave)

/-- The holes that are revealed up to a wave, if there is such a wave. -/
def criticalHoles? (w : Waves n h) (wave : Nat) : Option (HoleSet h) :=
  if wave < w.count then some (w.criticalHoles wave) else none

/-- The waves, one line for each. -/
def text (w : Waves n h) : String :=
  String.join (w.states.zipIdx.map fun (states, wave) =>
    "wave " ++ toString wave ++ ": " ++ braced states ++ "\n")

end Waves

end HoleBlame
