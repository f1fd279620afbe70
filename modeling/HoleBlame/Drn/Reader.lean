import HoleBlame.Chain.Draft
import HoleBlame.Decimal.Reader
import HoleBlame.Drn.Line
import HoleBlame.Text.Lines

/-!
# Chains from text

A chain in the DRN format has a header of sections, each introduced by a line that starts with `@`,
and a body that lists the states with their transitions.

* The header names the type, which must be `DTMC`, the number of states, and optionally one reward
  model.  The value of a section stands on the next line that is not blank.  Sections of any other
  name are skipped together with their value.  The header ends with `@model`.
* In the body every state has one action, and every action one list of transitions.  The reward of a
  state is its own reward plus the reward of its action.  The label `init` marks the initial state.

Blank lines and comments, which start with `//`, may stand between any two lines, but the value of a
section is never taken for a comment.
-/

namespace HoleBlame

open Text

/-- Why a text is no chain. -/
inductive DrnError where
  | unsupportedType (name : String)
  | missingSection (name : String)
  | multipleRewardModels (names : String)
  | invalidLine (number : Nat) (line : String)
  | multipleActions (state : Nat)
  | missingInitialState
  | stateOutOfBounds (line state size : Nat)
  | natural (error : NatError)
  | decimal (error : FloatError)
  | chain (error : ChainError)

/-- The wording of an error. -/
def DrnError.message : DrnError → String
  | .unsupportedType name => "Unsupported model type '" ++ name ++ "', only DTMC is supported"
  | .missingSection name => "Missing section " ++ name
  | .multipleRewardModels names => "Only a single reward model is supported, found '" ++ names ++ "'"
  | .invalidLine number line => "Invalid line " ++ toString number ++ ": '" ++ line ++ "'"
  | .multipleActions state =>
    "State " ++ toString state ++ " has more than one action, which is not allowed in a DTMC"
  | .missingInitialState => "No state is marked as initial state"
  | .stateOutOfBounds line state size =>
    "Line " ++ toString line ++ " refers to state " ++ toString state ++ ", but @nr_states declares "
      ++ toString size ++ " states"
  | .natural error => error.message
  | .decimal error => error.message
  | .chain error => error.message

namespace Drn

/-- The label that marks the initial state. -/
def initLabel : String := "init"

/-! ## The header -/

/-- What the header has said so far. -/
structure Header where
  /-- The type has been given. -/
  hasType : Bool
  /-- The name of the reward model. -/
  model : Option String
  /-- The number of states. -/
  size : Option Nat

/-- What the next line of the header that is not blank will be. -/
inductive Expecting where
  | section
  | rewardModels
  | size
  | ignored

/-- Reads the header and returns what follows its last line, if it has one. -/
def readHeader (h : Header) (e : Expecting) :
    List Line → Except DrnError (Header × Option (List Line))
  | [] =>
    match e with
    | .section => .ok (h, none)
    | .rewardModels => .error (.missingSection "@reward_models")
    | .size => .error (.missingSection "@nr_states")
    | .ignored => .ok (h, none)
  | line :: rest =>
    let text := trim line.text
    match e with
    | .section =>
      if isSilent text then readHeader h .section rest
      else
        match after? "@type:".toList text with
        | some name =>
          if trim name = "DTMC".toList then readHeader { h with hasType := true } .section rest
          else .error (.unsupportedType (String.ofList (trim name)))
        | none =>
          if text = "@reward_models".toList then readHeader h .rewardModels rest
          else if text = "@nr_states".toList then readHeader h .size rest
          else if text = "@model".toList then .ok (h, some rest)
          else if text.head? = some '@' then readHeader h .ignored rest
          else .error (.invalidLine line.number (String.ofList text))
    | .rewardModels =>
      match words line.text with
      | [] => readHeader h .rewardModels rest
      | [name] => readHeader { h with model := some (String.ofList name) } .section rest
      | names => .error (.multipleRewardModels (String.intercalate " " (names.map String.ofList)))
    | .size =>
      if text = [] then readHeader h .size rest
      else
        match Decimal.readNat text with
        | .ok size => readHeader { h with size := some size } .section rest
        | .error error => .error (.natural error)
    | .ignored => if text = [] then readHeader h .ignored rest else readHeader h .section rest

/-! ## The body -/

/-- What the body has said so far. -/
structure Body where
  /-- The facts stated about the chain. -/
  draft : Draft
  /-- The state last marked as initial. -/
  initial : Option Nat
  /-- The state that the last state line named. -/
  current : Option Nat
  /-- That state line has been followed by an action. -/
  hasAction : Bool
  /-- The reward on that state line. -/
  reward : Float

/-- Reads the number of a state. -/
def readState (size line : Nat) (text : List Char) : Except DrnError Nat :=
  match Decimal.readNat text with
  | .error error => .error (.natural error)
  | .ok state => if state < size then .ok state else .error (.stateOutOfBounds line state size)

/-- Reads a number. -/
def readNumber (text : List Char) : Except DrnError Float :=
  match Decimal.readFloat text with
  | .error error => .error (.decimal error)
  | .ok value => .ok value

/-- Reads an optional reward.  Of several rewards, which commas separate, only the first counts; a
missing one is zero. -/
def readReward : Option (List Char) → Except DrnError Float
  | none => .ok 0
  | some text =>
    let first := trim (text.takeWhile (· != ','))
    if first = [] then .ok 0 else readNumber first

/-- States the reward of a state, if the chain has a reward model. -/
def stateReward (draft : Draft) (model : Option String) (state : Nat) (value : Float) : Draft :=
  match model with
  | some name => draft.state (.reward name state value)
  | none => draft

/-- Reads a line of the body. -/
def readLine (size : Nat) (model : Option String) (b : Body) (line : Line) : Except DrnError Body :=
  let text := trim line.text
  if isSilent text then .ok b
  else
    let invalid := DrnError.invalidLine line.number (String.ofList text)
    match bodyLine? text with
    | none => .error invalid
    | some (.state number reward labels) => do
      let state ← readState size line.number number
      let value ← readReward reward
      let labels := labels.map fun label => String.ofList (unquoted label)
      let draft := labels.foldl (fun draft label => draft.state (.labelled state label)) b.draft
      .ok { draft := stateReward draft model state value
            initial := if initLabel ∈ labels then some state else b.initial
            current := some state, hasAction := false, reward := value }
    | some (.action reward) =>
      match b.current with
      | none => .error invalid
      | some state =>
        if b.hasAction then .error (.multipleActions state)
        else do
          let value ← readReward reward
          .ok { b with draft := stateReward b.draft model state (b.reward + value), hasAction := true }
    | some (.transition target prob) =>
      match b.current, b.hasAction with
      | some state, true => do
        let next ← readState size line.number target
        let prob ← readNumber prob
        .ok { b with draft := b.draft.state (.transition state prob next) }
      | _, _ => .error invalid

/-- Reads a chain. -/
def read (bytes : List UInt8) : Except DrnError ((n : Nat) × Chain Float n) := do
  let (header, body?) ← readHeader ⟨false, none, none⟩ .section (lines bytes)
  if !header.hasType then .error (.missingSection "@type")
  else
    match body?, header.size with
    | none, _ => .error (.missingSection "@model")
    | some _, none => .error (.missingSection "@nr_states")
    | some body, some size =>
      let b ← body.foldlM (readLine size header.model) ⟨Draft.ofSize size, none, none, false, 0⟩
      match b.initial with
      | none => .error .missingInitialState
      | some initial =>
        match b.draft.finish initial with
        | .ok chain => .ok chain
        | .error error => .error (.chain error)

end Drn

end HoleBlame
