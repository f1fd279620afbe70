/-!
# Progress

A long computation reports its progress now and then, but not more often than once per interval, so
that messages do not flood the screen.
-/

namespace HoleBlame

/-- When progress has been reported last, and how long the next report has to wait. -/
structure Progress where
  /-- The time between two reports in nanoseconds. -/
  interval : Nat
  /-- The time of the last report, at first that of the beginning. -/
  last : Nat
deriving DecidableEq

namespace Progress

/-- A report is due. -/
def isDue (p : Progress) (now : Nat) : Bool :=
  p.interval ≤ now - p.last

/-- Of the things that could be reported at certain times, those that are reported. -/
def reported {β : Type} (p : Progress) : List (Nat × β) → List β
  | [] => []
  | (now, x) :: rest =>
    if p.isDue now then x :: reported { p with last := now } rest else reported p rest

end Progress

end HoleBlame
