/-!
# The arithmetic of probabilities and rewards

Chains are stored, shortened and iterated over any type of numbers with a handful of operations.
The program runs on binary64 numbers (`Scalar Float`); an exact type of numbers can take their
place wherever a statement is about the values themselves and not about their rounding.

Nothing is assumed of the operations here.  Two of the constants need a word: `infinity` is the
value of a state that may miss its target for ever, and `emptySum` is what a sum starts from.
-/

namespace HoleBlame

/-- Numbers that can serve as probabilities, rewards, bounds and thresholds. -/
class Scalar (α : Type) extends Zero α, One α, Add α, Sub α, Mul α, LT α, LE α, BEq α where
  /-- The order is decided by computation. -/
  decideLT : DecidableLT α
  /-- The weak order is decided by computation. -/
  decideLE : DecidableLE α
  /-- A value strictly between zero and one. -/
  half : α
  /-- The value above every number. -/
  infinity : α
  /-- The sum of no terms. -/
  emptySum : α
  /-- The absolute value. -/
  abs : α → α
  /-- Neither infinite nor undefined. -/
  isFinite : α → Bool
  /-- The value of an undefined operation. -/
  isNaN : α → Bool

namespace Scalar

instance {α : Type} [Scalar α] : DecidableLT α := decideLT

instance {α : Type} [Scalar α] : DecidableLE α := decideLE

variable {α : Type} [Scalar α]

/-- The sum of a term for every element, from left to right, so that rounding happens in a fixed
order. -/
@[specialize] def sumOver {β : Type} (xs : List β) (term : β → α) : α :=
  xs.foldl (fun sum x => sum + term x) emptySum

/-- Moves a value into the closed unit interval; an undefined value stays as it is. -/
def clampUnit (x : α) : α :=
  if x < 0 then 0 else if 1 < x then 1 else x

end Scalar

/-- Binary64 arithmetic.  A sum starts from negative zero, the neutral element of addition. -/
instance : Scalar Float where
  decideLT := inferInstance
  decideLE := inferInstance
  half := 0.5
  infinity := 1.0 / 0.0
  emptySum := -0.0
  abs := Float.abs
  isFinite := Float.isFinite
  isNaN := Float.isNaN

end HoleBlame
