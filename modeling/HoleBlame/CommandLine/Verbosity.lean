import HoleBlame.CommandLine.Switch

/-!
# Verbosity

How much a command tells beyond its results: nothing, an account of what it does, or more and more
details.
-/

namespace HoleBlame.CommandLine

/-- How much a command tells. -/
inductive Verbosity where
  | quiet
  | verbose
  | debug
  | trace
deriving DecidableEq

namespace Verbosity

/-- The name of a verbosity. -/
def name : Verbosity → String
  | quiet => "quiet"
  | verbose => "verbose"
  | debug => "debug"
  | trace => "trace"

/-- The most detailed messages that are let through. -/
def logLevel : Verbosity → String
  | quiet => "OFF"
  | verbose => "INFO"
  | debug => "DEBUG"
  | trace => "TRACE"

/-- The verbosity that the switches ask for. -/
def ofSwitches (quiet : Bool) (details : Nat) : Verbosity :=
  if quiet then .quiet
  else
    match details with
    | 0 => verbose
    | 1 => debug
    | _ => trace

end Verbosity

/-- What is said about the tool as a whole and not about a command. -/
structure General where
  /-- Only the version is asked for. -/
  version : Bool
  /-- How much is told. -/
  verbosity : Verbosity
deriving DecidableEq

/-- Reads a command line that has no command, but only switches for the version and the verbosity. -/
def General.read? (args : List (List Char)) : Option General := do
  let known := [.version, .quiet, .verbose]
  let (items, _) ← scan known false args
  if isConsistent known items && (operands items).isEmpty then
    some
      { version := 0 < occurrences .version items
        verbosity := .ofSwitches (0 < occurrences .quiet items) (occurrences .verbose items) }
  else none

end HoleBlame.CommandLine
