import HoleBlame.Text.Scan

/-!
# The lines of notes

Notes on a chain have lines of four forms, and anything from the character `#` to the end of a line is a
comment:

```text
holes <number>
<state> : <hole> <hole> ...
bound <state> <value>
target <state>
```

A line is recognised by its form alone; whether the numbers in it can be read is another question.  No
line has two of the forms, since only the second one starts with a digit.
-/

namespace HoleBlame.Notes

open Text

/-- A line of notes, split into its parts. -/
inductive NoteLine where
  /-- The number of holes. -/
  | header (number : List Char)
  /-- Holes that a state depends on. -/
  | holes (state : List Char) (holes : List (List Char))
  /-- A bound on the value of a state. -/
  | bound (state value : List Char)
  /-- A target. -/
  | target (state : List Char)
deriving DecidableEq

/-- A number with nothing behind it. -/
def lastNumber? (text : List Char) : Option (List Char) := do
  let (number, rest) ← number? text
  if rest = [] then some number else none

/-- What follows a keyword and at least one blank. -/
def keyword? (word text : List Char) : Option (List Char) :=
  (after? word text).bind afterBlanks?

/-- The header. -/
def header? (text : List Char) : Option NoteLine := do
  let number ← lastNumber? (← keyword? "holes".toList text)
  some (.header number)

/-- A line of holes. -/
def holesLine? (text : List Char) : Option NoteLine := do
  let (state, rest) ← number? text
  match skipBlanks rest with
  | ':' :: rest =>
    if rest.all fun c => isDecimalDigit c || isBlank c then some (.holes state (words rest)) else none
  | _ => none

/-- A line with a bound. -/
def boundLine? (text : List Char) : Option NoteLine := do
  let (state, rest) ← number? (← keyword? "bound".toList text)
  let (value, rest) ← word? (← afterBlanks? rest)
  if rest = [] then some (.bound state value) else none

/-- A line with a target. -/
def targetLine? (text : List Char) : Option NoteLine := do
  let state ← lastNumber? (← keyword? "target".toList text)
  some (.target state)

/-- Splits a line without comments and without blanks at its ends. -/
def noteLine? (text : List Char) : Option NoteLine :=
  header? text <|> holesLine? text <|> boundLine? text <|> targetLine? text

/-- A line without its comment and without blanks at its ends. -/
def content (text : List Char) : List Char :=
  trim (text.takeWhile (· != '#'))

end HoleBlame.Notes
