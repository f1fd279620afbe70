import HoleBlame.Scalar
import HoleBlame.Decimal.Nearest

/-!
# Numbers from text

Two readers, each with its own errors.

* `readNat` takes a decimal number below `2 ^ 64`, with an optional plus sign.  The characters are
  looked at from the left, and the first thing wrong is the error: a character that is no digit, or a
  number that has become too large.
* `readFloat` takes a decimal with an optional sign, point and exponent, or one of the words `inf`,
  `infinity` and `nan` in any case.  The result is the binary64 value nearest to what was written.

Neither accepts blanks or separators, and both accept the ten ASCII digits alone.
-/

namespace HoleBlame

/-- What is wrong with the text of a natural number. -/
inductive NatError where
  | empty
  | invalidDigit
  | tooLarge
deriving Repr, DecidableEq

/-- The wording of an error. -/
def NatError.message : NatError → String
  | .empty => "cannot parse integer from empty string"
  | .invalidDigit => "invalid digit found in string"
  | .tooLarge => "number too large to fit in target type"

/-- What is wrong with the text of a number. -/
inductive FloatError where
  | empty
  | invalid
deriving Repr, DecidableEq

/-- The wording of an error. -/
def FloatError.message : FloatError → String
  | .empty => "cannot parse float from empty string"
  | .invalid => "invalid float literal"

namespace Decimal

/-- The value of an ASCII digit. -/
def digit? (c : Char) : Option Nat :=
  if c.isDigit then some (c.toNat - '0'.toNat) else none

/-- Continues a number by further digits, as long as it stays below `2 ^ 64`. -/
def readDigits (n : Nat) : List Char → Except NatError Nat
  | [] => .ok n
  | c :: rest =>
    match digit? c with
    | none => .error .invalidDigit
    | some d => if 10 * n + d < Nat.pow 2 64 then readDigits (10 * n + d) rest else .error .tooLarge

/-- Reads a natural number below `2 ^ 64`. -/
def readNat : List Char → Except NatError Nat
  | [] => .error .empty
  | '+' :: c :: rest => readDigits 0 (c :: rest)
  | text => readDigits 0 text

/-- Splits off the longest initial run of ASCII digits. -/
def splitDigits (text : List Char) : List Char × List Char :=
  (text.takeWhile Char.isDigit, text.dropWhile Char.isDigit)

/-- The number that a run of digits stands for. -/
def natValue (digits : List Char) : Nat :=
  Nat.ofDigitChars 10 digits 0

/-- Reads the exponent at the end of a literal: nothing, or the letter `e` with an optional sign and
at least one digit. -/
def readExponent : List Char → Option Int
  | [] => some 0
  | e :: rest =>
    if e = 'e' ∨ e = 'E' then
      match rest with
      | '-' :: digits => unsigned digits |>.map fun n => -(n : Int)
      | '+' :: digits => unsigned digits |>.map fun n => (n : Int)
      | digits => unsigned digits |>.map fun n => (n : Int)
    else none
where
  /-- At least one digit, and nothing but digits. -/
  unsigned (digits : List Char) : Option Nat :=
    if digits ≠ [] ∧ digits.all Char.isDigit then some (natValue digits) else none

/-- Reads an unsigned literal: digits with an optional point, at least one digit in all, and an
optional exponent. -/
def readUnsigned (text : List Char) : Option Decimal :=
  let (whole, rest) := splitDigits text
  let (places, rest) := match rest with
    | '.' :: rest => splitDigits rest
    | rest => ([], rest)
  if whole = [] ∧ places = [] then none
  else (readExponent rest).map fun e => ⟨natValue (whole ++ places), e - places.length⟩

/-- Reads a magnitude: a word for an infinite or undefined value, or a literal. -/
def readMagnitude (text : List Char) : Option Float :=
  let word := text.map Char.toLower
  if word = ['i', 'n', 'f'] ∨ word = ['i', 'n', 'f', 'i', 'n', 'i', 't', 'y'] then some Scalar.infinity
  else if word = ['n', 'a', 'n'] then some (0.0 / 0.0)
  else (readUnsigned text).map toFloat

/-- Reads a number. -/
def readFloat : List Char → Except FloatError Float
  | [] => .error .empty
  | '-' :: text => (readMagnitude text).elim (.error .invalid) fun x => .ok (-x)
  | '+' :: text => (readMagnitude text).elim (.error .invalid) .ok
  | text => (readMagnitude text).elim (.error .invalid) .ok

end Decimal

end HoleBlame
