import HoleBlame.Proofs.Renumbering

/-!
# Waves do not depend on the numbers of states and holes

Two explorations run side by side, one of a chain and one of the same chain under new numbers of its states
and holes.  They start alike and every step keeps them alike (`Exploration.step?_renumber`), so they end
alike (`Exploration.run_renumber`), and the waves are the old ones under new numbers
(`Waves.explore_renumber`).

That a step never looks at a number is what makes this work: new states are found in the order of the
transitions, the state found last is explored next, and of all blocked states with the fewest hidden holes
the first one found opens the next wave.  Only the members of a set of holes are listed in the order of
their numbers, but all that is done with this list is counting (`Exploration.hidden_renumber`).
-/

namespace HoleBlame

variable {α : Type} {n h : Nat} {σ : Equiv.Perm (Fin n)} {τ : Equiv.Perm (Fin h)}

/-- The states of a list that are new are the same ones under new numbers. -/
theorem Graph.fresh_renumber (seen : StateSet n) (states : List (Fin n)) :
    fresh (seen.renumber σ) (states.map σ) =
      ((fresh seen states).1.map σ, (fresh seen states).2.renumber σ) := by
  induction states generalizing seen with
  | nil => rfl
  | cons s rest ih =>
    rw [List.map_cons, fresh, fresh]
    by_cases hs : s ∈ seen
    · rw [if_pos hs, if_pos (StateSet.mem_renumber.mpr hs), ih]
    · rw [if_neg hs, if_neg (hs ∘ StateSet.mem_renumber.mp), StateSet.insert_renumber, ih]
      rfl

namespace Exploration

/-! ## Holes -/

variable {revealed : Vector (Option Nat) h} {set : HoleSet h}

/-- As many holes are hidden as before. -/
theorem hidden_renumber :
    hidden (renumber τ revealed) (set.renumber τ) = hidden revealed set := by
  rw [hidden, HoleSet.perm_renumber.countP_eq, List.countP_map, hidden]
  simp only [Function.comp_def, get_renumber]

theorem reveal_renumber (wave : Nat) :
    reveal wave (set.renumber τ) (renumber τ revealed) = renumber τ (reveal wave set revealed) :=
  eq_renumber fun y => by simp [get_reveal]

/-! ## Counted states -/

/-- The same counts of the states under new numbers. -/
def renumberCounts (σ : Equiv.Perm (Fin n)) (counts : List (Fin n × Nat)) : List (Fin n × Nat) :=
  counts.map (Prod.map σ id)

variable {counts : List (Fin n × Nat)}

theorem renumberCounts_append {more : List (Fin n × Nat)} :
    renumberCounts σ (counts ++ more) = renumberCounts σ counts ++ renumberCounts σ more :=
  List.map_append

theorem map_fst_renumberCounts : (renumberCounts σ counts).map (·.1) = (counts.map (·.1)).map σ := by
  rw [renumberCounts, List.map_map, List.map_map]
  rfl

theorem free_renumber : free (renumberCounts σ counts) = (free counts).map σ := by
  rw [free, renumberCounts, List.filter_map]
  exact map_fst_renumberCounts

theorem barred_renumber : barred (renumberCounts σ counts) = renumberCounts σ (barred counts) :=
  List.filter_map

/-- The first state with the lowest count stays the first one. -/
theorem cheapest?_renumber :
    cheapest? (renumberCounts σ counts) = (cheapest? counts).map (Prod.map σ id) := by
  induction counts with
  | nil => rfl
  | cons e rest ih =>
    rw [renumberCounts, List.map_cons, ← renumberCounts, cheapest?, ih, cheapest?]
    cases cheapest? rest with
    | none => rfl
    | some f =>
      simp only [Option.map_some, Prod.map_snd, id_eq]
      split <;> rfl

/-! ## Steps -/

/-- The same moment under new numbers of the states and holes. -/
def renumber (σ : Equiv.Perm (Fin n)) (τ : Equiv.Perm (Fin h)) (x : Exploration n h) :
    Exploration n h where
  stack := x.stack.map σ
  blocked := renumberCounts σ x.blocked
  found := x.found.renumber σ
  revealed := HoleBlame.renumber τ x.revealed
  current := x.current.map σ
  finished := x.finished.map (·.map σ)

variable {next next' : Fin n → List (Fin n)} {holes holes' : Fin n → HoleSet h}
  {x : Exploration n h} {s : Fin n} {stack : List (Fin n)}

theorem candidate?_renumber : (x.renumber σ τ).candidate? = x.candidate?.map σ := by
  rw [candidate?, renumber, cheapest?_renumber, candidate?, Option.map_map, Option.map_map]
  rfl

section Holes

variable (same : ∀ s, holes' (σ s) = (holes s).renumber τ)
include same

theorem count_renumber (states : List (Fin n)) :
    count holes' (HoleBlame.renumber τ revealed) (states.map σ) =
      renumberCounts σ (count holes revealed states) := by
  rw [count, renumberCounts, count, List.map_map, List.map_map]
  refine List.map_congr_left fun s _ => ?_
  rw [Function.comp_apply, Function.comp_apply, same, hidden_renumber]
  rfl

theorem start_renumber : start holes' (σ s) = (start holes s).renumber σ τ := by
  have counts : count holes' (.replicate h none) [σ s] =
      renumberCounts σ (count holes (.replicate h none) [s]) := by
    rw [← count_renumber same, renumber_replicate]
    rfl
  rw [start, counts, free_renumber, barred_renumber, start, renumber, renumber_replicate,
    ← StateSet.insert_renumber, StateSet.renumber_empty]
  rfl

theorem openWave_renumber :
    (x.renumber σ τ).openWave holes' (σ s) = (x.openWave holes s).renumber σ τ := by
  have waiting : (x.renumber σ τ).waiting = x.waiting.map σ := map_fst_renumberCounts
  rw [openWave, waiting]
  simp only [openWave, renumber, same, reveal_renumber, count_renumber same, free_renumber,
    barred_renumber, List.map_reverse, List.map_cons, List.map_nil, List.length_cons, List.length_map]

variable (moves : ∀ s, next' (σ s) = (next s).map σ)
include moves

theorem visit_renumber : (x.renumber σ τ).visit next' holes' (σ s) (stack.map σ) =
    (x.visit next holes s stack).renumber σ τ := by
  simp only [visit, renumber, moves, Graph.fresh_renumber, count_renumber same, free_renumber,
    barred_renumber, renumberCounts_append, List.map_append, List.map_reverse, List.map_cons]

/-- **A step under new numbers is the same step.** -/
theorem step?_renumber :
    (x.renumber σ τ).step? next' holes' = (x.step? next holes).map (renumber σ τ) := by
  cases hs : x.stack with
  | nil =>
    have hs' : (x.renumber σ τ).stack = [] := by rw [renumber, hs]; rfl
    simp only [step?, hs, hs', candidate?_renumber, Option.map_map]
    exact congrArg (Option.map · _) (funext fun s => openWave_renumber same)
  | cons s stack =>
    have hs' : (x.renumber σ τ).stack = σ s :: stack.map σ := by rw [renumber, hs]; rfl
    simp only [step?, hs, hs', visit_renumber same moves, Option.map_some]

/-- **Explorations under new numbers end alike.** -/
theorem run_renumber :
    (x.renumber σ τ).run next' holes' = (x.run next holes).renumber σ τ := by
  induction x using run.induct next holes with
  | case1 x y e ih =>
    have e' := step?_renumber same moves (x := x)
    rw [e] at e'
    rw [run, e', run, e]
    exact ih
  | case2 x e =>
    have e' := step?_renumber same moves (x := x)
    rw [e] at e'
    rw [run, e', run, e]
    rfl

end Holes

end Exploration

/-! ## Waves -/

/-- The errors agree but for the state that they name. -/
inductive WavesError.Alike : WavesError → WavesError → Prop where
  | choiceOutOfBounds (state choice state' choice' size : Nat) :
    Alike (.choiceOutOfBounds state choice size) (.choiceOutOfBounds state' choice' size)

namespace Waves

variable {c : Chain α n} {holes holes' : Fin n → HoleSet h} {a : Annotated α n h} {w : Waves n h}

/-- The same waves under new numbers of the states and holes. -/
def renumber (σ : Equiv.Perm (Fin n)) (τ : Equiv.Perm (Fin h)) (w : Waves n h) : Waves n h where
  states := w.states.map (·.map σ)
  revealed := HoleBlame.renumber τ w.revealed

theorem count_renumber : (w.renumber σ τ).count = w.count :=
  List.length_map _

theorem last_renumber : (w.renumber σ τ).last = w.last := by
  rw [last, count_renumber, last]

theorem criticalHoles_renumber (wave : Nat) :
    (w.renumber σ τ).criticalHoles wave = (w.criticalHoles wave).renumber τ :=
  HoleSet.eq_renumber fun y => by
    rw [mem_criticalHoles, mem_criticalHoles, renumber, get_renumber]

theorem ofExploration_renumber (x : Exploration n h) :
    ofExploration (x.renumber σ τ) = (ofExploration x).renumber σ τ := by
  simp only [ofExploration, Exploration.renumber, renumber, List.map_reverse, List.map_cons]

theorem explore_renumber (same : ∀ s, holes' (σ s) = (holes s).renumber τ) :
    explore (c.renumber σ) holes' = (explore c holes).renumber σ τ := by
  have start := Exploration.start_renumber (s := c.initial) same
  have run := Exploration.run_renumber (x := .start holes c.initial) same
    fun s => c.successors_renumber (σ := σ) (s := s)
  rw [explore, explore, ← ofExploration_renumber, ← run, ← start]
  rfl

/-- **The waves of a member are the same under new numbers.** -/
theorem ofAnnotated_renumber (a : Annotated α n h) : Likewise WavesError.Alike (renumber σ τ)
    (ofAnnotated a) (ofAnnotated (a.renumber σ τ)) := by
  have beyond (s : Fin n) :
      (a.renumber σ τ).table.numChoices ≤ (a.renumber σ τ).member.choice.get (σ s) ↔
        a.table.numChoices ≤ a.member.choice.get s := by
    rw [Annotated.renumber, Member.renumber, get_renumber, HoleTable.numChoices_renumber]
  have size : (a.renumber σ τ).table.numChoices = a.table.numChoices :=
    HoleTable.numChoices_renumber
  unfold ofAnnotated
  cases hs : (List.finRange n).find? fun s => a.table.numChoices ≤ a.member.choice.get s with
  | none =>
    have none' : ((List.finRange n).find? fun s =>
        (a.renumber σ τ).table.numChoices ≤ (a.renumber σ τ).member.choice.get s) = none := by
      rw [List.find?_eq_none] at hs ⊢
      intro s _
      obtain ⟨t, rfl⟩ := σ.surjective s
      simpa [beyond] using hs t (List.mem_finRange t)
    rw [none', show (a.renumber σ τ).member.chain = a.member.chain.renumber σ from rfl,
      explore_renumber fun s => a.holes_renumber]
    exact .ok _
  | some s =>
    have hs := List.find?_some hs
    obtain ⟨s', hs'⟩ : ∃ s', ((List.finRange n).find? fun s =>
        (a.renumber σ τ).table.numChoices ≤ (a.renumber σ τ).member.choice.get s) = some s' := by
      rw [← Option.isSome_iff_exists, List.find?_isSome]
      exact ⟨σ s, List.mem_finRange _, by simpa [beyond] using hs⟩
    rw [hs', size]
    exact .error (.choiceOutOfBounds ..)

end Waves

end HoleBlame
