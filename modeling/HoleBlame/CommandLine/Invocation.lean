import HoleBlame.CommandLine.Verbosity
import HoleBlame.Explanation
import HoleBlame.Property.Reader

/-!
# What a command line asks for

A command line names one of three commands, or none.  Some switches are understood before the name of
the command as well as after it; given in both places, the later one counts.
-/

namespace HoleBlame.CommandLine

/-- A command with its operands and settings. -/
inductive Command where
  /-- Explains why the chain violates the property. -/
  | counterexample (chain holes : String) (property : Property Float) (batchSize : Nat)
      (onFailure : FailurePolicy) (deadline : Option Nat) (precision : Float)
  /-- Lists the waves of the chain. -/
  | waves (chain holes : String)
  /-- Checks the property on the chain. -/
  | check (chain : String) (property : Property Float) (precision : Float)

/-- A command line that has been understood. -/
structure Invocation where
  /-- Only the version is asked for. -/
  version : Bool
  /-- How much is told. -/
  verbosity : Verbosity
  /-- A report on the time taken is asked for. -/
  timings : Bool
  /-- The file to which a record of the time taken is added. -/
  timingsFile : Option String
  /-- The command. -/
  command : Option Command

/-- The switches that are understood everywhere. -/
def globalSwitches : List Switch :=
  [.version, .quiet, .verbose, .timings, .timingsYaml]

/-- The switches that a command understands on its own. -/
def commandSwitches (name : List Char) : Option (List Switch) :=
  if name = "counterexample".toList then
    some [.property, .batchSize, .oracleFailure, .deadline, .precision]
  else if name = "waves".toList then some []
  else if name = "check".toList then some [.property, .precision]
  else none

/-! ## Values -/

/-- The name of a file. -/
def file? (text : List Char) : Option String :=
  if text = [] then none else some (String.ofList text)

/-- The value of a switch read in some way, or something else if the switch is not given. -/
def valueOr? {β : Type} (key : Switch) (items : List Item) (default : β)
    (read : List Char → Option β) : Option β :=
  match value? key items with
  | none => some default
  | some text => read text

/-- A natural number. -/
def natural? (text : List Char) : Option Nat :=
  (Decimal.readNat text).toOption

/-- A number. -/
def number? (text : List Char) : Option Float :=
  (Decimal.readFloat text).toOption

/-- The name of a policy. -/
def policy? (text : List Char) : Option FailurePolicy :=
  if text = "fail".toList then some .fail
  else if text = "conservative".toList then some .conservative
  else none

/-- The property that a command is about. -/
def property? (items : List Item) : Option (Property Float) := do
  (Property.read (String.ofList (← value? .property items))).toOption

/-- The precision of a check. -/
def precision? (items : List Item) : Option Float :=
  valueOr? .precision items (Checker.precision Checker.standard) number?

/-- Reads a command of the given name. -/
def command? (name : List Char) (items : List Item) : Option Command :=
  if name = "counterexample".toList then
    match operands items with
    | [chain, holes] => do
      some (.counterexample (← file? chain) (← file? holes) (← property? items)
        (← valueOr? .batchSize items 1 natural?) (← valueOr? .oracleFailure items .fail policy?)
        (← valueOr? .deadline items none fun text => (natural? text).map some) (← precision? items))
    | _ => none
  else if name = "waves".toList then
    match operands items with
    | [chain, holes] => do some (.waves (← file? chain) (← file? holes))
    | _ => none
  else
    match operands items with
    | [chain] => do some (.check (← file? chain) (← property? items) (← precision? items))
    | _ => none

/-! ## The command line -/

/-- Puts together what stands before the name of the command and what stands after it. -/
def invocation? (before after : List Item) (command : Option Command) : Option Invocation := do
  let given (key : Switch) := 0 < occurrences key before || 0 < occurrences key after
  let details := occurrences .verbose after
  let details := if details = 0 then occurrences .verbose before else details
  let earlier ← valueOr? .timingsYaml before none fun text => (file? text).map some
  let later ← valueOr? .timingsYaml after none fun text => (file? text).map some
  some
    { version := given .version
      verbosity := .ofSwitches (given .quiet) details
      timings := given .timings
      timingsFile := later <|> earlier
      command := command }

/-- Reads a command line.  An empty one asks for nothing and is rejected. -/
def Invocation.read? (args : List (List Char)) : Option Invocation := do
  let (before, rest) ← scan globalSwitches true args
  if !isConsistent globalSwitches before || !(operands before).isEmpty then none
  else
    match rest with
    | [] => if before.isEmpty then none else invocation? before [] none
    | name :: rest =>
      let known := globalSwitches ++ (← commandSwitches name)
      let (after, _) ← scan known false rest
      if !isConsistent known after then none
      else invocation? before after (some (← command? name after))

end HoleBlame.CommandLine
