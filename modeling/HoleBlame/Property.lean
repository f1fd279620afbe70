import HoleBlame.Scalar
import HoleBlame.Decimal.Notation

/-!
# Properties

A property bounds a value of the states of a chain: the probability of reaching a target, possibly
through states of a constraint only, or the reward that is collected until the target is reached.

Upper bounds are safety properties and lower bounds are liveness properties: revealing more of a chain
can only raise what is known of its value, which speaks against the first and for the second.
-/

namespace HoleBlame

/-- How a value is compared with a threshold. -/
inductive Comparison where
  | less
  | lessEqual
  | greater
  | greaterEqual
deriving Repr, DecidableEq

namespace Comparison

/-- The comparison that holds where this one does not, as far as values are ordered. -/
def negate : Comparison → Comparison
  | less => greaterEqual
  | lessEqual => greater
  | greater => lessEqual
  | greaterEqual => less

/-- The value stands on the stated side of the threshold. -/
def holds {α : Type} [Scalar α] (c : Comparison) (value threshold : α) : Bool :=
  match c with
  | less => value < threshold
  | lessEqual => value ≤ threshold
  | greater => threshold < value
  | greaterEqual => threshold ≤ value

/-- The comparison bounds values from above. -/
def isUpper : Comparison → Bool
  | less => true
  | lessEqual => true
  | greater => false
  | greaterEqual => false

/-- The sign of a comparison. -/
def sign : Comparison → String
  | less => "<"
  | lessEqual => "<="
  | greater => ">"
  | greaterEqual => ">="

end Comparison

/-- A bound on a value. -/
structure Bound (α : Type) where
  /-- The side on which the value has to be. -/
  comparison : Comparison
  /-- The number that it is compared with. -/
  threshold : α
deriving DecidableEq, BEq

namespace Bound

variable {α : Type}

/-- The value satisfies the bound. -/
def holds [Scalar α] (b : Bound α) (value : α) : Bool :=
  b.comparison.holds value b.threshold

/-- The bound with the opposite verdict on every ordered value. -/
def negate (b : Bound α) : Bound α :=
  { b with comparison := b.comparison.negate }

end Bound

/-- What a property measures in a state. -/
inductive Formula where
  /-- The probability of reaching the target, through states of the constraint if there is one. -/
  | probability (constraint : Option String) (target : String)
  /-- The expected reward of the named model that is collected before the target. -/
  | reward (model : String) (target : String)
deriving Repr, DecidableEq

namespace Formula

/-- The label of the states to be reached. -/
def target : Formula → String
  | probability _ target => target
  | reward _ target => target

/-- The same formula with another target. -/
def withTarget (label : String) : Formula → Formula
  | probability constraint _ => probability constraint label
  | reward model _ => reward model label

/-- The formula is an expected reward. -/
def isReward : Formula → Bool
  | probability .. => false
  | reward .. => true

end Formula

/-- A bounded probability or expected reward. -/
structure Property (α : Type) where
  /-- What is measured. -/
  formula : Formula
  /-- The bound on it. -/
  bound : Bound α
deriving DecidableEq, BEq

namespace Property

variable {α : Type}

/-- The property bounds its value from above. -/
def isSafety (p : Property α) : Bool :=
  p.bound.comparison.isUpper

/-- The same property with another target. -/
def withTarget (p : Property α) (label : String) : Property α :=
  { p with formula := p.formula.withTarget label }

/-- The property with the opposite bound. -/
def negate (p : Property α) : Property α :=
  { p with bound := p.bound.negate }

/-- A label in quotes. -/
def quoted (label : String) : String :=
  "\"" ++ label ++ "\""

/-- The text of a property.  Labels and names are written as they are. -/
def text (p : Property Float) : String :=
  let bound := p.bound.comparison.sign ++ numberText p.bound.threshold
  match p.formula with
  | .probability none target => "P" ++ bound ++ " [F " ++ quoted target ++ "]"
  | .probability (some constraint) target =>
    "P" ++ bound ++ " [" ++ quoted constraint ++ " U " ++ quoted target ++ "]"
  | .reward model target => "R\x7b" ++ quoted model ++ "\x7d" ++ bound ++ " [F " ++ quoted target ++ "]"

end Property

end HoleBlame
