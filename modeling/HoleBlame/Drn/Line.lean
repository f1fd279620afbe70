import HoleBlame.Text.Scan

/-!
# The lines of a chain's text

The body of a chain in the DRN format has lines of three forms:

```text
state <number> [<reward>] <labels>...
action <name> [<reward>]
<number> : <probability>
```

The bracketed rewards are optional.  A line is recognised by its form alone; whether the numbers in
it can be read is another question.  A state line takes everything behind its number, and behind a
bracketed reward that a blank sets off from the number, as labels.
-/

namespace HoleBlame.Drn

open Text

/-- A line of the body, split into its parts. -/
inductive BodyLine where
  /-- A state with an optional reward and its labels. -/
  | state (number : List Char) (reward : Option (List Char)) (labels : List (List Char))
  /-- An action of the current state with an optional reward. -/
  | action (reward : Option (List Char))
  /-- A transition of the current state. -/
  | transition (target prob : List Char)
deriving DecidableEq

/-- A text in brackets that blanks set off from what precedes it, and what follows it. -/
def bracketGroup? (text : List Char) : Option (List Char × List Char) := do
  match ← afterBlanks? text with
  | '[' :: rest => upTo? ']' rest
  | _ => none

/-- A state line. -/
def stateLine? (text : List Char) : Option BodyLine := do
  let rest ← after? ['s', 't', 'a', 't', 'e'] text
  let rest ← afterBlanks? rest
  let (number, rest) ← number? rest
  match bracketGroup? rest with
  | some (reward, labels) => some (.state number (some reward) (words labels))
  | none => some (.state number none (words rest))

/-- An action line. -/
def actionLine? (text : List Char) : Option BodyLine := do
  let rest ← after? ['a', 'c', 't', 'i', 'o', 'n'] text
  let rest ← afterBlanks? rest
  let (_, rest) ← word? rest
  if skipBlanks rest = [] then some (.action none)
  else
    let (reward, rest) ← bracketGroup? rest
    if skipBlanks rest = [] then some (.action (some reward)) else none

/-- A transition line. -/
def transitionLine? (text : List Char) : Option BodyLine := do
  let (target, rest) ← number? text
  match skipBlanks rest with
  | ':' :: rest =>
    let (prob, rest) ← word? (skipBlanks rest)
    if rest = [] then some (.transition target prob) else none
  | _ => none

/-- Splits a line without blanks at its ends. -/
def bodyLine? (text : List Char) : Option BodyLine :=
  stateLine? text <|> actionLine? text <|> transitionLine? text

/-- A label without the quotes at its ends. -/
def unquoted (label : List Char) : List Char :=
  ((label.dropWhile (· == '"')).reverse.dropWhile (· == '"')).reverse

/-- The line says nothing: it is empty, or a comment. -/
def isSilent (text : List Char) : Bool :=
  text = [] || (after? ['/', '/'] text).isSome

end HoleBlame.Drn
