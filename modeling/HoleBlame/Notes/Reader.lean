import HoleBlame.Annotated
import HoleBlame.Decimal.Reader
import HoleBlame.Notes.Line
import HoleBlame.Text.Lines

/-!
# Notes on a chain

Notes say which holes the states of a chain depend on, and what is known of the states in advance.  The
chain is its own quotient model, so that a state and its only choice have the same number.  Notes start
with the number of holes.  Lines for the same state add up: its holes
are those of all its lines, and its bound is that of the last line with one.  A state without a line
depends on no hole.

The number of holes may be stated again, and the last statement counts.  Whether all holes exist is
therefore decided at the end.
-/

namespace HoleBlame

open Text

/-- Why a text has no notes on a chain. -/
inductive NotesError where
  | missingHeader (line : Nat)
  | invalidLine (number : Nat) (line : String)
  | stateOutOfBounds (line state size : Nat)
  | natural (error : NatError)
  | decimal (error : FloatError)
  | holes (error : HoleTableError)

/-- The wording of an error. -/
def NotesError.message : NotesError → String
  | .missingHeader line => "Expected the header 'holes <number>' before line " ++ toString line
  | .invalidLine number line => "Invalid line " ++ toString number ++ ": '" ++ line ++ "'"
  | .stateOutOfBounds line state size =>
    "Line " ++ toString line ++ " refers to state " ++ toString state ++ ", but the chain has "
      ++ toString size ++ " states"
  | .natural error => error.message
  | .decimal error => error.message
  | .holes error => error.message

namespace Notes

variable {n : Nat}

/-- What notes on a chain with `n` states have said so far. -/
structure Said (n : Nat) where
  /-- The number of holes. -/
  numHoles : Option Nat
  /-- The holes of every state, in the order in which they were stated. -/
  holes : Vector (List Nat) n
  /-- The bounds and targets. -/
  priors : Priors Float

/-- Nothing has been said. -/
def Said.nothing (n : Nat) : Said n :=
  ⟨none, .replicate n [], .ofSize n⟩

/-- Reads a number. -/
def readNumber (text : List Char) : Except NotesError Nat :=
  match Decimal.readNat text with
  | .ok number => .ok number
  | .error error => .error (.natural error)

/-- Reads the number of a state. -/
def readState (n line : Nat) (text : List Char) : Except NotesError (Fin n) := do
  let state ← readNumber text
  if hs : state < n then .ok ⟨state, hs⟩ else .error (.stateOutOfBounds line state n)

/-- Reads the numbers of holes. -/
def readHoles (texts : List (List Char)) : Except NotesError (List Nat) :=
  texts.mapM readNumber

/-- Reads a bound, which may be infinite but not undefined. -/
def readBound (invalid : NotesError) (text : List Char) : Except NotesError Float :=
  match Decimal.readFloat text with
  | .error error => .error (.decimal error)
  | .ok value => if value.isNaN then .error invalid else .ok value

/-- Reads a line. -/
def readLine (x : Said n) (line : Line) : Except NotesError (Said n) :=
  let text := content line.text
  if text = [] then .ok x
  else
    let invalid := NotesError.invalidLine line.number (String.ofList text)
    match noteLine? text, x.numHoles with
    | some (.header number), _ => do
      let number ← readNumber number
      .ok { x with numHoles := some number }
    | _, none => .error (.missingHeader line.number)
    | some (.holes state holes), some _ => do
      let s ← readState n line.number state
      let holes ← readHoles holes
      .ok { x with holes := assign x.holes s (x.holes.get s ++ holes) }
    | some (.bound state value), some _ => do
      let s ← readState n line.number state
      let value ← readBound invalid value
      .ok { x with priors := x.priors.setBound s value }
    | some (.target state), some _ => do
      let s ← readState n line.number state
      .ok { x with priors := x.priors.setTarget s }
    | none, some _ => .error invalid

/-- Reads the notes on a chain. -/
def read (c : Chain Float n) (bytes : List UInt8) :
    Except NotesError ((h : Nat) × Annotated Float n h) := do
  let lines := lines bytes
  let x ← lines.foldlM readLine (Said.nothing n)
  match x.numHoles with
  | none => .error (.missingHeader (lines.length + 1))
  | some h =>
    match HoleTable.ofLists? h x.holes.toList with
    | .error error => .error (.holes error)
    | .ok table => .ok ⟨h, .identity c, table, x.priors⟩

end Notes

end HoleBlame
