import HoleBlame.Shortcut
import HoleBlame.Timing
import HoleBlame.Waves

/-!
# Explaining violations

Why does a member of a family violate a property?  Because of the values of its critical holes: every
member that agrees on them violates the property too.

The waves of the member are expanded one after the other in a shortened chain, and an oracle is asked
about the chain whenever a batch of waves is complete (`Explanation.search`).  As soon as the answer is
that the shortened chain violates the property, the holes revealed so far are critical.  If the answer
is still missing after the last wave, the member satisfies the property, and there is nothing to
explain.

An oracle may fail, or time may run out.  The holes of all waves are critical in any case, and this is
the conservative explanation that remains then.

The oracle may be anything that answers; it may remember what it has been asked and take its time.  The
search is therefore written over any monad.
-/

namespace HoleBlame

/-- What happens when the oracle fails. -/
inductive FailurePolicy where
  /-- The failure is reported. -/
  | fail
  /-- All holes that are revealed in some wave are critical. -/
  | conservative
deriving DecidableEq

/-- How explanations are searched for. -/
structure SearchOptions where
  /-- The number of waves that are expanded between two questions. -/
  batchSize : Nat
  /-- What happens when the oracle fails. -/
  onFailure : FailurePolicy
  /-- At least one wave is expanded. -/
  batchSize_pos : 0 < batchSize

/-- The options with the given batch size, if it makes sense. -/
def SearchOptions.ofBatchSize? (batchSize : Nat) (onFailure : FailurePolicy) : Option SearchOptions :=
  if h : 0 < batchSize then some ⟨batchSize, onFailure, h⟩ else none

/-- Why a member violates a property. -/
structure Explanation (h : Nat) where
  /-- The holes whose values alone bring the violation about. -/
  criticalHoles : HoleSet h
  /-- The wave after which the search stopped. -/
  stoppingWave : Nat
  /-- The number of waves of the member. -/
  numWaves : Nat
  /-- How often the oracle was asked. -/
  oracleCalls : Nat
  /-- The search was given up. -/
  conservative : Bool
deriving DecidableEq

/-- Why there is no explanation. -/
inductive ExplanationError (α : Type) where
  | waves (error : WavesError)
  | shortcut (error : ShortcutError α)
  | incompleteResult (found expected : Nat)
  | satisfied (property : Property α)
  | oracle (error : CheckError)

/-- The wording of an error. -/
def ExplanationError.message : ExplanationError Float → String
  | .waves error => error.message
  | .shortcut error => error.message
  | .incompleteResult found expected =>
    "The oracle returned a result for " ++ toString found ++ " states, but the shortcut chain has "
      ++ toString expected ++ " states"
  | .satisfied property => "The chain satisfies " ++ property.text ++ ", so there is no counterexample"
  | .oracle _ => "The model checking oracle failed"

/-- The answer of an oracle to the question about a shortened chain, which need not be about as many
states as the chain has. -/
abbrev Answer (α : Type) : Type :=
  Except CheckError ((size : Nat) × CheckResult α size)

/-- An answer, and whether time has run out by then. -/
structure Reply (α : Type) where
  /-- The answer. -/
  answer : Answer α
  /-- Time has run out. -/
  expired : Bool

/-- How a search ends. -/
inductive Verdict where
  /-- The chain in which the waves up to the given one are expanded violates the property. -/
  | violated (wave calls : Nat)
  /-- The search was given up. -/
  | gaveUp (calls : Nat)
  /-- The fully expanded chain satisfies the property. -/
  | satisfied
  /-- The oracle failed. -/
  | failed (error : CheckError)
  /-- The oracle answered for the given number of states. -/
  | incomplete (found : Nat)

namespace Explanation

variable {α : Type} {n h : Nat} [Scalar α] {m : Type → Type} [Monad m]

/-- What an answer says of the initial state of a shortened chain, unless it is about a chain of
another size. -/
def satisfies? (x : Shortcut α n) (answer : (size : Nat) × CheckResult α size) : Option Bool :=
  if e : n + 2 = answer.1 then
    some (answer.2.satisfies (x.chain.initial.cast e) x.property.bound)
  else none

/-- Expands the remaining waves of a shortened chain until the search ends.  The numbers are those of
the first remaining wave and of the next question. -/
def search (ask : Nat → Shortcut α n → m (Reply α)) (o : SearchOptions) :
    Nat → Nat → Shortcut α n → List (List (Fin n)) → m Verdict
  | _, _, _, [] => pure .satisfied
  | wave, calls, x, states :: rest => do
    let x := x.expand states
    if (wave + 1) % o.batchSize != 0 && !rest.isEmpty then search ask o (wave + 1) calls x rest
    else
      let reply ← ask calls x
      match reply.answer with
      | .error error =>
        match o.onFailure with
        | .fail => return .failed error
        | .conservative => return .gaveUp (calls + 1)
      | .ok answer =>
        match satisfies? x answer with
        | none => return .incomplete answer.1
        | some false => return .violated wave (calls + 1)
        | some true =>
          if reply.expired && !rest.isEmpty then return .gaveUp (calls + 1)
          else search ask o (wave + 1) (calls + 1) x rest

/-- The explanation with the holes revealed up to a wave. -/
def ofWave (w : Waves n h) (wave calls : Nat) (conservative : Bool) : Explanation h :=
  ⟨w.criticalHoles wave, wave, w.count, calls, conservative⟩

/-- The explanation that the end of a search amounts to. -/
def conclude (w : Waves n h) (p : Property α) : Verdict → Except (ExplanationError α) (Explanation h)
  | .violated wave calls => .ok (ofWave w wave calls false)
  | .gaveUp calls => .ok (ofWave w w.last calls true)
  | .satisfied => .error (.satisfied p)
  | .failed error => .error (.oracle error)
  | .incomplete found => .error (.incompleteResult found (n + 2))

/-- Explains why a member violates a property, asking an oracle. -/
def find (watch : Stopwatch m) (ask : Nat → Shortcut α n → m (Reply α)) (o : SearchOptions)
    (a : Annotated α n h) (p : Property α) : m (Except (ExplanationError α) (Explanation h)) := do
  match ← watch.measure "waves" fun _ => pure (Waves.ofAnnotated a) with
  | .error error => return .error (.waves error)
  | .ok waves =>
    match ← watch.measure "shortcut" fun _ => pure (Shortcut.ofMember a.member a.priors p) with
    | .error error => return .error (.shortcut error)
    | .ok shortcut =>
      let verdict ← search ask o 0 0 shortcut waves.states
      return conclude waves p verdict

/-! ## Oracles -/

/-- The answer of a checker. -/
def answerOf (k : Checker α) (x : Shortcut α n) : Answer α :=
  (k.check x.chain x.property).map fun result => ⟨n + 2, result⟩

/-- Explains why a member violates a property with an oracle that is given some nanoseconds.  They are
counted from the beginning, and an answer that is under way is waited for. -/
def findWithin (watch : Stopwatch m) (oracle : Nat → Shortcut α n → m (Answer α))
    (budget : Option Nat) (o : SearchOptions) (a : Annotated α n h) (p : Property α) :
    m (Except (ExplanationError α) (Explanation h)) := do
  let start ← watch.now
  let ask (call : Nat) (x : Shortcut α n) : m (Reply α) := do
    let begun ← watch.now
    let answer ← oracle call x
    watch.record "oracle" ((← watch.now) - begun)
    let spent := (← watch.now) - start
    return ⟨answer, budget.any (· ≤ spent)⟩
  find watch ask o a p

end Explanation

end HoleBlame
