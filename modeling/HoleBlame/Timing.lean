import HoleBlame.Decimal.Notation

/-!
# Timing

How long the phases of a computation took.  A phase that runs several times adds up.  Phases are
listed in the order in which they first came to an end, so a phase that never does is not listed.

Times are in nanoseconds.  A `Stopwatch` is what a computation needs to be timed; one that is at rest
(`Stopwatch.idle`) lets the same computation run where there is no time.
-/

namespace HoleBlame

/-- The time that a phase has taken. -/
structure Phase where
  /-- The name of the phase. -/
  name : String
  /-- The nanoseconds of all its runs. -/
  total : Nat
  /-- The number of its runs. -/
  runs : Nat
deriving DecidableEq

/-- The time that phases have taken. -/
structure Timing where
  /-- The phases in the order in which they first ended. -/
  phases : List Phase
deriving DecidableEq

namespace Timing

/-- No phase has ended. -/
def empty : Timing :=
  ⟨[]⟩

/-- Adds a run to the phase of the given name, which is listed last if it is new. -/
def record (name : String) (elapsed : Nat) : List Phase → List Phase
  | [] => [⟨name, elapsed, 1⟩]
  | p :: rest =>
    if p.name = name then ⟨name, p.total + elapsed, p.runs + 1⟩ :: rest
    else p :: record name elapsed rest

/-- The timing after a further run of a phase. -/
def finish (t : Timing) (name : String) (elapsed : Nat) : Timing :=
  ⟨record name elapsed t.phases⟩

/-- The time of a phase, if it has ended. -/
def total? (t : Timing) (name : String) : Option Nat :=
  (t.phases.find? (·.name = name)).map (·.total)

/-- A time in seconds, with three places. -/
def seconds (nanoseconds : Nat) : String :=
  String.ofList (Decimal.withPlaces (Decimal.natDigits (Decimal.roundDiv nanoseconds 1000000)) 3) ++ "s"

/-- The line of a phase in a report, which tells the number of runs if there were several. -/
def phaseLine (p : Phase) : String :=
  "Time " ++ p.name ++ ": " ++ seconds p.total
    ++ if 1 < p.runs then " (" ++ toString p.runs ++ " runs)" else ""

/-- A report, line by line. -/
def report (t : Timing) : List String :=
  t.phases.map phaseLine

/-- A record in YAML, line by line. -/
def yaml (tool : String) (t : Timing) : List String :=
  ["- tool: " ++ tool, "  timing:"] ++ t.phases.map fun p => "    " ++ p.name ++ ": " ++ seconds p.total

end Timing

/-- A phase that is running. -/
structure Timer where
  /-- The name of the phase. -/
  name : String
  /-- When it started. -/
  start : Nat

/-- Ends a run of a phase. -/
def Timer.finish (timer : Timer) (now : Nat) (t : Timing) : Timing :=
  t.finish timer.name (now - timer.start)

/-- What it takes to time a computation. -/
structure Stopwatch (m : Type → Type) where
  /-- The time. -/
  now : m Nat
  /-- Takes note of a run of a phase that has ended. -/
  record : String → Nat → m Unit

namespace Stopwatch

/-- Time stands still, and nothing is noted. -/
def idle : Stopwatch Id :=
  ⟨0, fun _ _ => ()⟩

variable {m : Type → Type} [Monad m] {ε β : Type}

/-- Times a phase, which has ended only if it succeeds. -/
def measure (w : Stopwatch m) (phase : String) (run : Unit → m (Except ε β)) : m (Except ε β) := do
  let start ← w.now
  let result ← run ()
  if result matches .ok _ then w.record phase ((← w.now) - start)
  return result

end Stopwatch

end HoleBlame
