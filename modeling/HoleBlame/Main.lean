import HoleBlame.CommandLine.Run

/-!
# The command line tool

Runs a command on the files of the machine.
-/

open HoleBlame.CommandLine

/-- The files, streams and clock of the machine. -/
def machine : Host IO where
  load name := try return some (← IO.FS.readBinFile name).toList catch _ => return none
  append name text :=
    try
      IO.FS.withFile name .append fun file => file.putStr text
      return true
    catch _ => return false
  print := IO.print
  report := IO.eprintln
  now := IO.monoNanosNow

/-- Runs the tool. -/
def main (args : List String) : IO UInt32 :=
  run machine args
