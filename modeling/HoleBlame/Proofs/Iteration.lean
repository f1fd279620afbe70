import HoleBlame.Checker
import Mathlib.Logic.Function.Iterate

/-!
# Iteration, round by round

Two tables take turns in the iteration of a checker, so that the one that is written holds values that
are two rounds old.  None of them is ever seen again: a round gives every state of the set its value
from the round before, all at once, and leaves the others alone (`Checker.round`).  The iteration ends
with the table of the first round that changes no value by more than the precision
(`Checker.iterate_eq_some`), so its answer is fixed by the rounds it takes (`Checker.Settles`).

How many rounds an answer takes can be seen from outside as well: it is the least limit under which the
checker does not give up (`Checker.AnswersAfter`).
-/

namespace HoleBlame

variable {α : Type} {n : Nat} [Scalar α]

namespace Checker

/-! ## One round -/

/-- One round: every state of the set takes its value from the values before. -/
def round (c : Chain α n) (reward : Fin n → α) (states : StateSet n) (values : Vector α n) :
    Vector α n :=
  .ofFn fun s => if s ∈ states then update c reward values s else values.get s

/-- The larger of a change and what the value of one more state changes by in a round. -/
def joinChange (c : Chain α n) (reward : Fin n → α) (values : Vector α n) (change : α) (s : Fin n) : α :=
  if update c reward values s == values.get s then change
  else larger change (Scalar.abs (update c reward values s - values.get s))

/-- The largest change of a value in one round. -/
def change (c : Chain α n) (reward : Fin n → α) (states : StateSet n) (values : Vector α n) : α :=
  states.toList.foldl (joinChange c reward values) 0

variable {c : Chain α n} {reward : Fin n → α} {states : StateSet n} {values next : Vector α n}
  {s : Fin n}

theorem get_round : (round c reward states values).get s =
    if s ∈ states then update c reward values s else values.get s :=
  get_ofFn _ _

theorem get_round_of_mem (hs : s ∈ states) :
    (round c reward states values).get s = update c reward values s := by
  rw [get_round, if_pos hs]

theorem get_round_of_not_mem (hs : s ∉ states) :
    (round c reward states values).get s = values.get s := by
  rw [get_round, if_neg hs]

omit [Scalar α] in
theorem get_foldl_assign_of_not_mem {list : List (Fin n)} {f : Fin n → α} (hs : s ∉ list) :
    (list.foldl (fun next s => assign next s (f s)) next).get s = next.get s := by
  induction list generalizing next with
  | nil => rfl
  | cons t rest ih =>
    obtain ⟨ht, hs⟩ := not_or.mp fun h => hs (List.mem_cons.mpr h)
    rw [List.foldl_cons, ih hs, get_assign, if_neg ht]

omit [Scalar α] in
theorem get_foldl_assign_of_mem {list : List (Fin n)} {f : Fin n → α} (hs : s ∈ list) :
    (list.foldl (fun next s => assign next s (f s)) next).get s = f s := by
  induction list generalizing next with
  | nil => cases hs
  | cons t rest ih =>
    rw [List.foldl_cons]
    by_cases later : s ∈ rest
    · exact ih later
    · obtain rfl : s = t := (List.mem_cons.mp hs).resolve_right later
      rw [get_foldl_assign_of_not_mem later, get_assign, if_pos rfl]

/-- A sweep writes the new values and finds their largest change, which do not depend on each other. -/
theorem sweep_eq (list : List (Fin n)) : sweep c reward values list next =
    (list.foldl (fun next s => assign next s (update c reward values s)) next,
      list.foldl (joinChange c reward values) 0) := by
  unfold sweep
  generalize (0 : α) = start
  induction list generalizing next start with
  | nil => rfl
  | cons s rest ih =>
    rw [List.foldl_cons, List.foldl_cons, List.foldl_cons, ← ih]
    rfl

/-- **A sweep is a round if both tables agree outside the set.** -/
theorem sweep_toList (agree : ∀ s, s ∉ states → next.get s = values.get s) :
    sweep c reward values states.toList next =
      (round c reward states values, change c reward states values) := by
  rw [sweep_eq, change]
  congr 1
  refine ext_get fun s => ?_
  by_cases hs : s ∈ states
  · rw [get_foldl_assign_of_mem (StateSet.mem_toList.mpr hs), get_round_of_mem hs]
  · rw [get_foldl_assign_of_not_mem fun h => hs (StateSet.mem_toList.mp h), get_round_of_not_mem hs,
      agree s hs]

/-! ## Rounds until the values settle -/

/-- The values after a number of rounds. -/
def table (c : Chain α n) (reward : Fin n → α) (states : StateSet n) (first : Vector α n)
    (rounds : Nat) : Vector α n :=
  (round c reward states)^[rounds] first

theorem table_succ (rounds : Nat) : table c reward states values (rounds + 1) =
    round c reward states (table c reward states values rounds) :=
  Function.iterate_succ_apply' _ _ _

/-- States outside the set keep their first values. -/
theorem get_table_of_not_mem (hs : s ∉ states) (rounds : Nat) :
    (table c reward states values rounds).get s = values.get s := by
  induction rounds with
  | zero => rfl
  | succ rounds ih => rw [table_succ, get_round_of_not_mem hs, ih]

/-- The first round that changes no value by more than the precision. -/
structure Settles (k : Checker α) (c : Chain α n) (reward : Fin n → α) (states : StateSet n)
    (first : Vector α n) (rounds : Nat) : Prop where
  pos : 0 < rounds
  settled : change c reward states (table c reward states first (rounds - 1)) ≤ k.precision
  unsettled : ∀ j, j + 1 < rounds →
    ¬ change c reward states (table c reward states first j) ≤ k.precision

variable {k : Checker α} {first : Vector α n} {rounds limit : Nat}

theorem Settles.unique {rounds' : Nat} (h : k.Settles c reward states first rounds)
    (h' : k.Settles c reward states first rounds') : rounds = rounds' := by
  have pos := h.pos
  have pos' := h'.pos
  rcases Nat.lt_trichotomy rounds rounds' with hlt | heq | hgt
  · exact absurd h.settled (h'.unsettled (rounds - 1) (by omega))
  · exact heq
  · exact absurd h'.settled (h.unsettled (rounds' - 1) (by omega))

/-- Values settle in the same round if the changes in every round pass the same test. -/
theorem settles_congr {m : Nat} {k' : Checker α} {c' : Chain α m} {reward' : Fin m → α}
    {states' : StateSet m} {first' : Vector α m}
    (same : ∀ j, change c' reward' states' (table c' reward' states' first' j) ≤ k'.precision ↔
      change c reward states (table c reward states first j) ≤ k.precision) :
    k'.Settles c' reward' states' first' rounds ↔ k.Settles c reward states first rounds := by
  constructor
  · rintro ⟨pos, settled, unsettled⟩
    exact ⟨pos, (same _).mp settled, fun j hj h => unsettled j hj ((same j).mpr h)⟩
  · rintro ⟨pos, settled, unsettled⟩
    exact ⟨pos, (same _).mpr settled, fun j hj h => unsettled j hj ((same j).mp h)⟩

/-- Values that settle at once need one round. -/
theorem settles_one (h : change c reward states first ≤ k.precision) :
    k.Settles c reward states first 1 :=
  ⟨Nat.one_pos, h, fun _ hj => by omega⟩

/-- Values that do not settle at once need one round more than those after the first round. -/
theorem settles_succ (h : ¬ change c reward states first ≤ k.precision) :
    k.Settles c reward states first (rounds + 1) ↔
      k.Settles c reward states (round c reward states first) rounds := by
  constructor
  · intro settles
    have pos : 0 < rounds := by
      by_contra hr
      obtain rfl : rounds = 0 := by omega
      exact h settles.settled
    obtain ⟨before, rfl⟩ : ∃ before, rounds = before + 1 := ⟨rounds - 1, by omega⟩
    exact ⟨pos, settles.settled, fun j hj => settles.unsettled (j + 1) (by omega)⟩
  · intro settles
    obtain ⟨before, rfl⟩ : ∃ before, rounds = before + 1 := ⟨rounds - 1, by have := settles.pos; omega⟩
    refine ⟨Nat.succ_pos _, settles.settled, fun j hj => ?_⟩
    cases j with
    | zero => exact h
    | succ j => exact settles.unsettled j (by omega)

/-- **The iteration ends with the first round in which the values settle.**  The second table is
free to hold any values as long as it agrees with the first one outside the set. -/
theorem iterate_eq_some {w : Vector α n} (agree : ∀ s, s ∉ states → next.get s = first.get s) :
    iterate k c reward states.toList limit first next = some w ↔
      ∃ rounds ≤ limit, k.Settles c reward states first rounds ∧
        w = table c reward states first rounds := by
  induction limit generalizing first next with
  | zero =>
    constructor
    · intro h
      cases h
    · rintro ⟨rounds, hle, settles, -⟩
      exact absurd settles.pos (by omega)
  | succ limit ih =>
    rw [iterate, sweep_toList agree]
    by_cases settled : change c reward states first ≤ k.precision
    · simp only [if_pos settled, Option.some.injEq]
      constructor
      · rintro rfl
        exact ⟨1, by omega, settles_one settled, rfl⟩
      · rintro ⟨rounds, -, settles, rfl⟩
        rw [settles.unique (settles_one settled)]
        rfl
    · simp only [if_neg settled]
      -- What is written next holds the values before this round, which agree outside the set.
      rw [ih fun s hs => (get_round_of_not_mem hs).symm]
      constructor
      · rintro ⟨rounds, hle, settles, rfl⟩
        exact ⟨rounds + 1, by omega, (settles_succ settled).mpr settles, rfl⟩
      · rintro ⟨rounds, hle, settles, rfl⟩
        obtain ⟨before, rfl⟩ : ∃ before, rounds = before + 1 :=
          ⟨rounds - 1, by have := settles.pos; omega⟩
        exact ⟨before, by omega, (settles_succ settled).mp settles, rfl⟩

/-- **The values of a chain are those of the first round in which they settle.** -/
theorem values_eq_ok {r : CheckResult α n} : k.values c reward states first = .ok r ↔
    ∃ rounds ≤ k.maxIterations, k.Settles c reward states first rounds ∧
      r = .quantitative (table c reward states first rounds) := by
  unfold values
  cases h : iterate k c reward states.toList k.maxIterations first first with
  | none =>
    constructor
    · intro e
      cases e
    · rintro ⟨rounds, hle, settles, -⟩
      have := (iterate_eq_some (fun _ _ => rfl)).mpr ⟨rounds, hle, settles, rfl⟩
      rw [h] at this
      cases this
  | some w =>
    obtain ⟨rounds, hle, settles, rfl⟩ := (iterate_eq_some fun _ _ => rfl).mp h
    constructor
    · intro e
      cases e
      exact ⟨rounds, hle, settles, rfl⟩
    · rintro ⟨rounds', -, settles', rfl⟩
      rw [settles.unique settles']

/-- **There are no values if they do not settle within the limit.** -/
theorem values_eq_error {error : CheckError} : k.values c reward states first = .error error ↔
    (∀ rounds ≤ k.maxIterations, ¬ k.Settles c reward states first rounds) ∧
      error = .noConvergence k.maxIterations := by
  cases h : k.values c reward states first with
  | ok r =>
    obtain ⟨rounds, hle, settles, -⟩ := values_eq_ok.mp h
    constructor
    · intro e
      cases e
    · rintro ⟨never, -⟩
      exact absurd settles (never rounds hle)
  | error error' =>
    have never : ∀ rounds ≤ k.maxIterations, ¬ k.Settles c reward states first rounds := by
      intro rounds hle settles
      have := values_eq_ok.mpr ⟨rounds, hle, settles, rfl⟩
      rw [h] at this
      cases this
    have reason : error' = .noConvergence k.maxIterations := by
      unfold values at h
      split at h
      · cases h
      · cases h
        rfl
    constructor
    · intro e
      cases e
      exact ⟨never, reason⟩
    · rintro ⟨-, rfl⟩
      rw [reason]

/-! ## How many rounds an answer takes -/

/-- The checker answers with values after this many rounds: with a smaller limit it gives up. -/
structure AnswersAfter (k : Checker α) (c : Chain α n) (p : Property α) (rounds : Nat)
    (values : Vector α n) : Prop where
  answer : k.check c p = .ok (.quantitative values)
  enough : check { k with maxIterations := rounds } c p = .ok (.quantitative values)
  fewer : ∀ limit < rounds,
    check { k with maxIterations := limit } c p = .error (.noConvergence limit)

/-- The values that answer a property are found by iteration: over which states and from which values
does not depend on the checker. -/
def Iterates (c : Chain α n) (p : Property α) (reward : Fin n → α) (states : StateSet n)
    (first : Vector α n) : Prop :=
  ∀ k : Checker α, k.check c p = k.values c reward states first

variable {p : Property α}

theorem Iterates.answersAfter (h : Iterates c p reward states first) {w : Vector α n} :
    k.AnswersAfter c p rounds w ↔ rounds ≤ k.maxIterations ∧
      k.Settles c reward states first rounds ∧ w = table c reward states first rounds := by
  have settles_iff (limit j : Nat) :
      Settles { k with maxIterations := limit } c reward states first j ↔
        k.Settles c reward states first j :=
    settles_congr fun _ => Iff.rfl
  constructor
  · rintro ⟨answer, enough, fewer⟩
    rw [h] at answer enough
    obtain ⟨j, hj, settles, e⟩ := values_eq_ok.mp enough
    obtain ⟨j', hj', settles', -⟩ := values_eq_ok.mp answer
    rw [settles_iff] at settles
    obtain rfl := settles.unique settles'
    -- With the rounds that the answer takes the checker does not give up.
    have least : ¬ j < rounds := by
      intro hlt
      have := fewer j hlt
      rw [h, values_eq_error] at this
      exact this.1 j (Nat.le_refl j) ((settles_iff j j).mpr settles)
    obtain rfl : j = rounds := Nat.le_antisymm hj (Nat.le_of_not_lt least)
    cases e
    exact ⟨hj', settles, rfl⟩
  · rintro ⟨hle, settles, rfl⟩
    refine ⟨?_, ?_, fun limit hlt => ?_⟩
    · rw [h, values_eq_ok]
      exact ⟨rounds, hle, settles, rfl⟩
    · rw [h, values_eq_ok]
      exact ⟨rounds, Nat.le_refl rounds, (settles_iff rounds rounds).mpr settles, rfl⟩
    · rw [h, values_eq_error]
      refine ⟨fun j hj settles' => ?_, rfl⟩
      have := ((settles_iff limit j).mp settles').unique settles
      have : j ≤ limit := hj
      omega

/-- An answer takes some number of rounds. -/
theorem Iterates.exists_answersAfter (h : Iterates c p reward states first) {r : CheckResult α n}
    (hr : k.check c p = .ok r) :
    ∃ rounds, k.AnswersAfter c p rounds (table c reward states first rounds) ∧
      r = .quantitative (table c reward states first rounds) := by
  rw [h] at hr
  obtain ⟨rounds, hle, settles, rfl⟩ := values_eq_ok.mp hr
  exact ⟨rounds, h.answersAfter.mpr ⟨hle, settles, rfl⟩, rfl⟩

end Checker

end HoleBlame
