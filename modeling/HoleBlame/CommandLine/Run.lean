import HoleBlame.CommandLine.Invocation
import HoleBlame.Drn.Reader
import HoleBlame.Notes.Reader

/-!
# Running commands

A command reads files, writes its result, and looks at the time now and then.  What it needs of its
surroundings is gathered in a `Host`, so that the same commands run on files and in memory.

The exit code is zero if the command succeeded, one if it failed, and two if the command line was not
understood.  Files are read in the order of the operands, and nothing is written before the result is
complete.
-/

namespace HoleBlame.CommandLine

/-- The surroundings of a command. -/
structure Host (m : Type → Type) where
  /-- The bytes of a file, if it can be read. -/
  load : String → m (Option (List UInt8))
  /-- Adds a text to the end of a file, which may be new, and tells whether this was possible. -/
  append : String → String → m Bool
  /-- Writes a part of the result. -/
  print : String → m Unit
  /-- Writes a message. -/
  report : String → m Unit
  /-- The time in nanoseconds. -/
  now : m Nat

/-- Why a command failed. -/
inductive CommandError where
  | file (name : String)
  | batchSize
  | chain (error : DrnError)
  | notes (error : NotesError)
  | waves (error : WavesError)
  | explanation (error : ExplanationError Float)
  | check (error : CheckError)

/-- The wording of an error. -/
def CommandError.message : CommandError → String
  | .file name => "The file '" ++ name ++ "' is not accessible"
  | .batchSize => "The batch size must be positive"
  | .chain error => error.message
  | .notes error => error.message
  | .waves error => error.message
  | .explanation error => error.message
  | .check error => error.message

/-- The name of the tool. -/
def toolName : String := "sketch-cex"

/-- The version of the tool. -/
def toolVersion : String := "1.0.0"

/-- A computation in surroundings where the phases are timed. -/
abbrev Timed (m : Type → Type) : Type → Type :=
  StateT Timing m

variable {m : Type → Type} [Monad m]

/-- The stopwatch that keeps the timing of a command. -/
def Host.stopwatch (host : Host m) : Stopwatch (Timed m) where
  now := host.now
  record name elapsed := modify (·.finish name elapsed)

/-- Reads a file within a phase. -/
def readIn {β : Type} (host : Host m) (phase file : String)
    (read : List UInt8 → Except CommandError β) : Timed m (Except CommandError β) :=
  host.stopwatch.measure phase fun _ => do
    match ← host.load file with
    | none => return .error (.file file)
    | some bytes => return read bytes

/-- Reads a chain. -/
def readChain (host : Host m) (file : String) :
    Timed m (Except CommandError ((n : Nat) × Chain Float n)) :=
  readIn host "read_chain" file fun bytes => (Drn.read bytes).mapError .chain

/-- Reads the notes on a chain. -/
def readNotes {n : Nat} (host : Host m) (file : String) (c : Chain Float n) :
    Timed m (Except CommandError ((h : Nat) × Annotated Float n h)) :=
  readIn host "read_holes" file fun bytes => (Notes.read c bytes).mapError .notes

/-- The lines that list waves, and the holes that are revealed in none. -/
def wavesText {n h : Nat} (w : Waves n h) : String :=
  let line (wave : Nat) (states : List (Fin n)) : String :=
    "wave " ++ toString wave ++ ": holes " ++ (w.revealedAt wave).text ++ " states " ++ braced states ++ "\n"
  let never := w.neverRevealed
  String.join (w.states.zipIdx.map fun (states, wave) => line wave states)
    ++ if never.isEmpty then "" else "unregistered holes " ++ never.text ++ "\n"

/-- A number of milliseconds in nanoseconds. -/
def milliseconds (count : Nat) : Nat :=
  count * 1000000

/-- Runs a command up to its result. -/
def Command.result (host : Host m) : Command → Timed m (Except CommandError String)
  | .counterexample chain holes p batchSize onFailure deadline precision => do
    match SearchOptions.ofBatchSize? batchSize onFailure with
    | none => return .error .batchSize
    | some o =>
      match ← readChain host chain with
      | .error error => return .error error
      | .ok ⟨_, c⟩ =>
        match ← readNotes host holes c with
        | .error error => return .error error
        | .ok ⟨_, a⟩ =>
          let checker := { Checker.standard with precision := precision }
          let explanation ← Explanation.findWithin host.stopwatch
            (fun _ x => pure (Explanation.answerOf checker x)) (deadline.map milliseconds) o a p
          return match explanation with
            | .error error => .error (.explanation error)
            | .ok explanation => .ok (explanation.criticalHoles.text ++ "\n")
  | .waves chain holes => do
    match ← readChain host chain with
    | .error error => return .error error
    | .ok ⟨_, c⟩ =>
      match ← readNotes host holes c with
      | .error error => return .error error
      | .ok ⟨_, a⟩ =>
        let waves ← host.stopwatch.measure "waves" fun _ => pure (Waves.ofAnnotated a)
        return match waves with
          | .error error => .error (.waves error)
          | .ok waves => .ok (wavesText waves)
  | .check chain p precision => do
    match ← readChain host chain with
    | .error error => return .error error
    | .ok ⟨_, c⟩ =>
      let checker := { Checker.standard with precision := precision }
      let result ← host.stopwatch.measure "check" fun _ => pure (checker.check c p)
      return match result with
        | .error error => .error (.check error)
        | .ok result => .ok (if result.satisfies c.initial p.bound then "true\n" else "false\n")

/-- Writes the timing of a command as far as it is asked for. -/
def writeTiming (host : Host m) (call : Invocation) (t : Timing) : m (Except CommandError Unit) := do
  if call.timings then t.report.forM host.report
  match call.timingsFile with
  | none => return .ok ()
  | some file =>
    if ← host.append file (String.join ((t.yaml toolName).map (· ++ "\n"))) then return .ok ()
    else return .error (.file file)

/-- Runs what a command line asks for. -/
def Invocation.run (host : Host m) (call : Invocation) : m (Except CommandError Unit) := do
  if call.version then
    host.report toolVersion
    return .ok ()
  else
    match call.command with
    | none => writeTiming host call .empty
    | some command =>
      match ← (command.result host).run .empty with
      | (.error error, _) => return .error error
      | (.ok text, timing) =>
        host.print text
        writeTiming host call timing

/-- Runs a command line and returns the exit code. -/
def run (host : Host m) (args : List String) : m UInt32 := do
  match Invocation.read? (args.map String.toList) with
  | none =>
    host.report ("usage: " ++ toolName ++ " counterexample|waves|check ...")
    return 2
  | some call =>
    match ← call.run host with
    | .ok () => return 0
    | .error error =>
      host.report ("Error: " ++ error.message)
      return 1

end HoleBlame.CommandLine
