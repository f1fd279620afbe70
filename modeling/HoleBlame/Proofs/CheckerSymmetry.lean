import HoleBlame.Proofs.Growth
import HoleBlame.Proofs.Likeness
import HoleBlame.Proofs.Renumbering

/-!
# Checking does not depend on the numbers of states

A checker answers a chain under new numbers of its states with the old answer under new numbers
(`Checker.check_renumber`).  For what it reads off the graph this is so because a chain looks the same
under new numbers (`Likeness.renumber`).  In a round of the iteration, every state adds up the same values in
the same order as before, so that rounding makes no difference (`Checker.round_renumber`).

There remains the test by which the iteration ends.  The largest change is found by comparing the changes
of all states in the order of their numbers, and the changes of some states may be undefined.  But whether it
exceeds the precision is a question about each state for itself (`Checker.change_le_iff`).
-/

namespace HoleBlame

variable {α : Type} {n : Nat} {σ : Equiv.Perm (Fin n)}

/-- A chain looks the same under new numbers. -/
theorem Likeness.renumber {c : Chain α n} {g g' : Goal n}
    (target : ∀ s, g'.target (σ s) ↔ g.target s) (allowed : ∀ s, g'.allowed (σ s) ↔ g.allowed s) :
    Likeness c (c.renumber σ) g g' (fun _ => True) fun s s' => σ s = s' where
  target := by
    rintro s _ rfl
    exact (target s).symm
  allowed := by
    rintro s _ rfl
    exact (allowed s).symm
  forth := by
    rintro s _ rfl - t ht
    rw [Chain.successors_renumber]
    exact ⟨σ t, List.mem_map_of_mem ht, rfl⟩
  back := by
    rintro s _ rfl - t' ht'
    rw [Chain.successors_renumber] at ht'
    exact List.mem_map.mp ht'

/-- The same answer under new numbers of the states. -/
def CheckResult.renumber (σ : Equiv.Perm (Fin n)) : CheckResult α n → CheckResult α n
  | qualitative satisfied => qualitative (satisfied.renumber σ)
  | quantitative values => quantitative (HoleBlame.renumber σ values)

theorem CheckResult.satisfies_renumber [Scalar α] {r : CheckResult α n} {s : Fin n} {b : Bound α} :
    (r.renumber σ).satisfies (σ s) b = r.satisfies s b := by
  cases r with
  | qualitative satisfied => simp [renumber, satisfies]
  | quantitative values => simp [renumber, satisfies]

namespace Checker

variable {c : Chain α n}

/-! ## The graph -/

section Extremes

variable {constraint : Option (StateSet n)} {target : StateSet n}

theorem likeness_renumber : Likeness c (c.renumber σ) (goalOf constraint target)
    (goalOf (constraint.map (·.renumber σ)) (target.renumber σ)) (fun _ => True)
    fun s s' => σ s = s' := by
  refine .renumber (fun s => StateSet.mem_renumber) fun s => ?_
  cases constraint <;> simp [goalOf]

theorem never_renumber : (extremes (c.renumber σ) (constraint.map (·.renumber σ))
    (target.renumber σ)).never = (extremes c constraint target).never.renumber σ :=
  StateSet.eq_renumber fun s => by
    rw [mem_never, mem_never, ← likeness_renumber.positive_iff (fun _ => trivial) rfl]

theorem surely_renumber : (extremes (c.renumber σ) (constraint.map (·.renumber σ))
    (target.renumber σ)).surely = (extremes c constraint target).surely.renumber σ :=
  StateSet.eq_renumber fun s => by
    rw [mem_surely, mem_surely, ← likeness_renumber.sure_iff (fun _ => trivial) rfl]

end Extremes

theorem label_renumber (name : String) :
    label (c.renumber σ) name = (label c name).map (·.renumber σ) := by
  unfold label
  rw [Chain.renumber, Labelling.get?_renumber]
  cases c.labelling.get? name <;> rfl

theorem label?_renumber (name : Option String) :
    label? (c.renumber σ) name = (label? c name).map (·.map (·.renumber σ)) := by
  cases name with
  | none => rfl
  | some name =>
    rw [label?, label_renumber, label?]
    cases label c name <;> rfl

/-! ## The iteration -/

variable [Scalar α] {reward reward' : Fin n → α} {states : StateSet n} {values first : Vector α n}
  {s : Fin n}

section Change

variable [Scalar.Monotone α] {x y precision : α}

open Scalar.Monotone

theorem larger_le_iff (hx : 0 ≤ x) : larger x y ≤ precision ↔
    x ≤ precision ∧ (0 ≤ y → y ≤ precision) := by
  unfold larger
  split
  · next hxy =>
    have le := le_of_lt hxy
    exact ⟨fun hy => ⟨le_trans le hy, fun _ => hy⟩, fun h => h.2 (le_trans hx le)⟩
  · next hxy =>
    exact ⟨fun h => ⟨h, fun hy => le_trans ((lt_or_le hx hy).resolve_left hxy) h⟩, And.left⟩

/-- What the value of a state changes by in a round is not above the precision.  A change that is
undefined is none. -/
def Still (c : Chain α n) (reward : Fin n → α) (values : Vector α n) (precision : α) (s : Fin n) : Prop :=
  (update c reward values s == values.get s) = false →
    0 ≤ Scalar.abs (update c reward values s - values.get s) →
    Scalar.abs (update c reward values s - values.get s) ≤ precision

theorem joinChange_le_iff (hx : 0 ≤ x) : joinChange c reward values x s ≤ precision ↔
    x ≤ precision ∧ Still c reward values precision s := by
  unfold joinChange Still
  split
  · next same => simp [same]
  · next changed =>
    rw [larger_le_iff hx]
    simp [changed]

/-- **The largest change of a round is not above the precision iff that of no state is.** -/
theorem change_le_iff : change c reward states values ≤ precision ↔
    0 ≤ precision ∧ ∀ s ∈ states, Still c reward values precision s := by
  have fold {list : List (Fin n)} {x : α} (hx : 0 ≤ x) :
      list.foldl (joinChange c reward values) x ≤ precision ↔
        x ≤ precision ∧ ∀ s ∈ list, Still c reward values precision s := by
    induction list generalizing x with
    | nil => simp
    | cons s rest ih =>
      rw [List.foldl_cons, ih (joinChange_nonneg hx), joinChange_le_iff hx, List.forall_mem_cons,
        and_assoc]
  rw [change, fold zero_le_zero]
  simp only [StateSet.mem_toList]

end Change

section Iteration

variable (same : ∀ s, reward' (σ s) = reward s)
include same

/-- A state adds up the same values as before. -/
theorem update_renumber :
    update (c.renumber σ) reward' (renumber σ values) (σ s) = update c reward values s := by
  simp only [update, same, Chain.row_renumber, Scalar.sumOver, List.foldl_map, Edge.renumber,
    get_renumber]

/-- **A round gives every state the same value as before.** -/
theorem round_renumber : round (c.renumber σ) reward' (states.renumber σ) (renumber σ values) =
    renumber σ (round c reward states values) :=
  eq_renumber fun s => by
    rw [get_round, get_round, update_renumber same, get_renumber]
    exact if_congr StateSet.mem_renumber rfl rfl

theorem table_renumber (rounds : Nat) :
    table (c.renumber σ) reward' (states.renumber σ) (renumber σ first) rounds =
      renumber σ (table c reward states first rounds) := by
  induction rounds with
  | zero => rfl
  | succ rounds ih => rw [table_succ, ih, round_renumber same, table_succ]

variable [Scalar.Monotone α]

/-- **The iteration ends after the same round as before.** -/
theorem change_le_renumber {precision : α} :
    change (c.renumber σ) reward' (states.renumber σ) (renumber σ values) ≤ precision ↔
      change c reward states values ≤ precision := by
  have still (s : Fin n) : Still (c.renumber σ) reward' (renumber σ values) precision (σ s) ↔
      Still c reward values precision s := by
    rw [Still, update_renumber same, get_renumber, Still]
  rw [change_le_iff, change_le_iff, ← σ.forall_congr_right]
  simp only [StateSet.mem_renumber, still]

theorem settles_renumber {k : Checker α} {rounds : Nat} :
    k.Settles (c.renumber σ) reward' (states.renumber σ) (renumber σ first) rounds ↔
      k.Settles c reward states first rounds := by
  refine settles_congr fun j => ?_
  rw [table_renumber same, change_le_renumber same]

/-- The values of a chain stay with their states. -/
theorem values_renumber {first' : Vector α n} (hf : ∀ s, first'.get (σ s) = first.get s)
    (k : Checker α) : k.values (c.renumber σ) reward' (states.renumber σ) first' =
      (k.values c reward states first).map (·.renumber σ) := by
  obtain rfl := eq_renumber hf
  cases h : k.values c reward states first with
  | ok r =>
    obtain ⟨rounds, hle, settles, rfl⟩ := values_eq_ok.mp h
    refine values_eq_ok.mpr ⟨rounds, hle, (settles_renumber same).mpr settles, ?_⟩
    exact congrArg _ (table_renumber same rounds).symm
  | error error =>
    obtain ⟨never, rfl⟩ := values_eq_error.mp h
    refine values_eq_error.mpr ⟨fun rounds hle settles => ?_, rfl⟩
    exact never rounds hle ((settles_renumber same).mp settles)

end Iteration

/-! ## Answers -/

/-- **A chain is answered under new numbers as it is under the old ones.** -/
theorem check_renumber [Scalar.Monotone α] (k : Checker α) (p : Property α) :
    k.check (c.renumber σ) p = (k.check c p).map (·.renumber σ) := by
  obtain ⟨formula, bound⟩ := p
  cases formula with
  | probability constraint label' =>
    cases ht : label c label' with
    | error error => simp only [check, label_renumber, ht]; rfl
    | ok target =>
      have ht' : label (c.renumber σ) label' = .ok (target.renumber σ) := by
        rw [label_renumber, ht]; rfl
      cases hc : label? c constraint with
      | error error => simp only [check, label?_renumber, ht, ht', hc]; rfl
      | ok through =>
        have hc' : label? (c.renumber σ) constraint = .ok (through.map (·.renumber σ)) := by
          rw [label?_renumber, hc]; rfl
        rw [check_probability k ht hc, check_probability k ht' hc', never_renumber, surely_renumber]
        split
        · refine congrArg (Except.ok ∘ CheckResult.qualitative) (StateSet.eq_renumber fun s => ?_)
          simp
        · rw [StateSet.union_renumber, StateSet.compl_renumber]
          exact values_renumber (fun _ => rfl) (fun s => by simp) k
  | reward model label' =>
    cases ht : label c label' with
    | error error => simp only [check, label_renumber, ht]; rfl
    | ok target =>
      have ht' : label (c.renumber σ) label' = .ok (target.renumber σ) := by
        rw [label_renumber, ht]; rfl
      cases hm : c.rewardModel? model with
      | none => simp only [check, Chain.rewardModel?_renumber, ht, ht', hm]; rfl
      | some rewards =>
        have hm' : (c.renumber σ).rewardModel? model = some (rewards.renumber σ) := by
          rw [Chain.rewardModel?_renumber, hm]; rfl
        have surely : (extremes (c.renumber σ) none (target.renumber σ)).surely =
            (extremes c none target).surely.renumber σ :=
          @surely_renumber α n σ c none target
        rw [check_reward k ht hm, check_reward k ht' hm', surely, StateSet.compl_renumber,
          StateSet.inter_renumber]
        exact values_renumber (fun s => get_renumber rewards.rewards s) (fun s => by simp) k

end Checker

end HoleBlame
