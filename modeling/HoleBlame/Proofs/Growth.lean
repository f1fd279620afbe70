import HoleBlame.Proofs.Iteration
import HoleBlame.Proofs.Order

/-!
# Values grow with the rounds

As long as no reward is negative, the values of an iteration never fall.  This takes no exact
arithmetic: `Scalar.Monotone` lists what is needed of the numbers, in the first place that the sums
and products of numbers that are not negative keep their order, however they are rounded.  Then a state
takes a larger value from larger values (`Checker.update_le_update`), and as the iteration starts from
zero, the values after more rounds are larger (`Checker.table_le_table`).

An infinite value is passed on to all states with a way to it, one transition in each round.  It does not
go unnoticed: in a round in which a value becomes infinite the values do not settle
(`Checker.Settles.infinity_le`).
-/

namespace HoleBlame

/-- The laws of calculating with numbers that are not negative: they are linearly ordered, sums and
products keep their order, and what is infinite stays so. -/
class Scalar.Monotone (α : Type) [Scalar α] : Prop extends Scalar.Ordered α where
  zero_le_zero : (0 : α) ≤ 0
  le_refl : ∀ {x : α}, 0 ≤ x → x ≤ x
  le_trans : ∀ {x y z : α}, x ≤ y → y ≤ z → x ≤ z
  lt_or_le : ∀ {x y : α}, 0 ≤ x → 0 ≤ y → x < y ∨ y ≤ x
  le_infinity : ∀ {x : α}, 0 ≤ x → x ≤ Scalar.infinity
  one_lt_infinity : (1 : α) < Scalar.infinity
  zero_le_emptySum : (0 : α) ≤ Scalar.emptySum
  add_nonneg : ∀ {x y : α}, 0 ≤ x → 0 ≤ y → 0 ≤ x + y
  add_le_add : ∀ {x x' y y' : α}, 0 ≤ x → x ≤ x' → 0 ≤ y → y ≤ y' → x + y ≤ x' + y'
  mul_nonneg : ∀ {p x : α}, 0 < p → p < Scalar.infinity → 0 ≤ x → 0 ≤ p * x
  mul_le_mul : ∀ {p x x' : α}, 0 < p → p < Scalar.infinity → 0 ≤ x → x ≤ x' → p * x ≤ p * x'
  infinity_le_infinity_add : (Scalar.infinity : α) ≤ Scalar.infinity + 0
  infinity_le_add_infinity : (Scalar.infinity : α) ≤ 0 + Scalar.infinity
  infinity_le_mul_infinity : ∀ {p : α}, 0 < p → p < Scalar.infinity →
    Scalar.infinity ≤ p * Scalar.infinity
  infinity_le_abs_sub : ∀ {x y : α}, 0 ≤ x → x < Scalar.infinity → Scalar.infinity ≤ y →
    Scalar.infinity ≤ Scalar.abs (y - x)
  idle : (0 : α) + (Scalar.emptySum + 1 * 0) ≤ 0

variable {α : Type} {n : Nat} [Scalar α]

/-- Every transition has a probability that is positive and finite. -/
def Chain.Proper (c : Chain α n) : Prop :=
  ∀ s, ∀ e ∈ c.row s, 0 < e.prob ∧ e.prob < Scalar.infinity

variable [Scalar.Monotone α]

namespace Scalar.Monotone

theorem le_of_lt {x y : α} (h : x < y) : x ≤ y :=
  Scalar.Ordered.le_iff.mpr (.inl h)

theorem not_lt_of_le {x y : α} (h : x ≤ y) : ¬ y < x := by
  intro hlt
  rcases Scalar.Ordered.le_iff.mp h with hlt' | heq
  · exact Scalar.Ordered.lt_irrefl _ (Scalar.Ordered.lt_trans hlt hlt')
  · exact Scalar.Ordered.lt_irrefl _ (Scalar.Ordered.lt_of_lt_of_beq hlt heq)

theorem zero_le_one : (0 : α) ≤ 1 :=
  le_of_lt Scalar.Ordered.zero_lt_one

theorem zero_le_infinity : (0 : α) ≤ Scalar.infinity :=
  le_infinity zero_le_zero

theorem infinity_le_add_right {x y : α} (hx : Scalar.infinity ≤ x) (hy : 0 ≤ y) :
    Scalar.infinity ≤ x + y :=
  le_trans infinity_le_infinity_add (add_le_add zero_le_infinity hx zero_le_zero hy)

theorem infinity_le_add_left {x y : α} (hx : 0 ≤ x) (hy : Scalar.infinity ≤ y) :
    Scalar.infinity ≤ x + y :=
  le_trans infinity_le_add_infinity (add_le_add zero_le_zero hx zero_le_infinity hy)

theorem infinity_le_mul {p x : α} (hp : 0 < p) (hp' : p < Scalar.infinity) (hx : Scalar.infinity ≤ x) :
    Scalar.infinity ≤ p * x :=
  le_trans (infinity_le_mul_infinity hp hp') (mul_le_mul hp hp' zero_le_infinity hx)

/-! ## Sums -/

section Sum

variable {β : Type} {f g : β → α} {xs : List β}

theorem foldl_add_nonneg (hf : ∀ x ∈ xs, 0 ≤ f x) {a : α} (ha : 0 ≤ a) :
    0 ≤ xs.foldl (fun sum x => sum + f x) a := by
  induction xs generalizing a with
  | nil => exact ha
  | cons x rest ih =>
    have hx := hf x List.mem_cons_self
    exact ih (fun y hy => hf y (List.mem_cons_of_mem x hy)) (add_nonneg ha hx)

theorem sumOver_nonneg (hf : ∀ x ∈ xs, 0 ≤ f x) : 0 ≤ Scalar.sumOver xs f :=
  foldl_add_nonneg hf zero_le_emptySum

/-- **Sums keep the order of their terms.** -/
theorem sumOver_le_sumOver (hf : ∀ x ∈ xs, 0 ≤ f x) (le : ∀ x ∈ xs, f x ≤ g x) :
    Scalar.sumOver xs f ≤ Scalar.sumOver xs g := by
  have fold {a b : α} (ha : 0 ≤ a) (hab : a ≤ b) :
      xs.foldl (fun sum x => sum + f x) a ≤ xs.foldl (fun sum x => sum + g x) b := by
    induction xs generalizing a b with
    | nil => exact hab
    | cons x rest ih =>
      have hx := hf x List.mem_cons_self
      have hle := le x List.mem_cons_self
      exact ih (fun y hy => hf y (List.mem_cons_of_mem x hy))
        (fun y hy => le y (List.mem_cons_of_mem x hy)) (add_nonneg ha hx)
        (add_le_add ha hab hx hle)
  exact fold zero_le_emptySum (le_refl zero_le_emptySum)

/-- A sum with an infinite term is infinite. -/
theorem infinity_le_sumOver (hf : ∀ x ∈ xs, 0 ≤ f x) {x : β} (hx : x ∈ xs)
    (infinite : Scalar.infinity ≤ f x) : Scalar.infinity ≤ Scalar.sumOver xs f := by
  have later {xs : List β} (hf : ∀ x ∈ xs, 0 ≤ f x) {a : α} (ha : Scalar.infinity ≤ a) :
      Scalar.infinity ≤ xs.foldl (fun sum x => sum + f x) a := by
    induction xs generalizing a with
    | nil => exact ha
    | cons y rest ih =>
      exact ih (fun z hz => hf z (List.mem_cons_of_mem y hz))
        (infinity_le_add_right ha (hf y List.mem_cons_self))
  obtain ⟨before, after, rfl⟩ := List.append_of_mem hx
  rw [Scalar.sumOver, List.foldl_append, List.foldl_cons]
  have sum_nonneg := foldl_add_nonneg
    (fun y hy => hf y (List.mem_append_left _ hy)) zero_le_emptySum
  exact later (fun y hy => hf y (List.mem_append_right _ (List.mem_cons_of_mem x hy)))
    (infinity_le_add_left sum_nonneg infinite)

end Sum

end Scalar.Monotone

/-! ## Bounds -/

/-- **A bound is monotone in its value**, also where the values may be equal. -/
theorem Bound.holds_of_le {b : Bound α} {x y : α} (h : x ≤ y) :
    (b.comparison.isUpper = true → b.holds y = true → b.holds x = true) ∧
      (b.comparison.isUpper = false → b.holds x = true → b.holds y = true) := by
  rcases Scalar.Ordered.le_iff.mp h with hlt | heq
  · exact Comparison.holds_of_lt hlt
  obtain ⟨c, t⟩ := b
  cases c with
  | less =>
    refine ⟨fun _ hy => ?_, fun hc => by cases hc⟩
    simp only [holds, Comparison.holds, decide_eq_true_eq] at hy ⊢
    exact Scalar.Ordered.lt_of_beq_of_lt heq hy
  | lessEqual =>
    refine ⟨fun _ hy => ?_, fun hc => by cases hc⟩
    simp only [holds, Comparison.holds, decide_eq_true_eq] at hy ⊢
    exact Scalar.Monotone.le_trans h hy
  | greater =>
    refine ⟨fun hc => by (cases hc), fun _ hx => ?_⟩
    simp only [holds, Comparison.holds, decide_eq_true_eq] at hx ⊢
    exact Scalar.Ordered.lt_of_lt_of_beq hx heq
  | greaterEqual =>
    refine ⟨fun hc => by (cases hc), fun _ hx => ?_⟩
    simp only [holds, Comparison.holds, decide_eq_true_eq] at hx ⊢
    exact Scalar.Monotone.le_trans hx h

namespace Checker

open Scalar.Monotone

variable {c : Chain α n} {reward : Fin n → α} {states : StateSet n} {first values values' : Vector α n}
  {s : Fin n}

/-! ## One round -/

section Update

variable (proper : c.Proper) (hr : 0 ≤ reward s) (nonneg : ∀ t, 0 ≤ values.get t)
include proper nonneg

theorem term_nonneg {e : Edge α n} (he : e ∈ c.row s) : 0 ≤ e.prob * values.get e.next :=
  mul_nonneg (proper s e he).1 (proper s e he).2 (nonneg e.next)

include hr

theorem update_nonneg : 0 ≤ update c reward values s :=
  add_nonneg hr (sumOver_nonneg fun _ he => term_nonneg proper nonneg he)

/-- **A state takes a larger value from larger values.** -/
theorem update_le_update (le : ∀ t, values.get t ≤ values'.get t) :
    update c reward values s ≤ update c reward values' s := by
  have terms := fun e (he : e ∈ c.row s) => term_nonneg proper nonneg he
  refine add_le_add hr (le_refl hr) (sumOver_nonneg terms) (sumOver_le_sumOver terms fun e he => ?_)
  exact mul_le_mul (proper s e he).1 (proper s e he).2 (nonneg e.next) (le e.next)

/-- A state with a successor whose value is infinite takes an infinite value. -/
theorem infinity_le_update {t : Fin n} (ht : t ∈ c.successors s)
    (infinite : Scalar.infinity ≤ values.get t) : Scalar.infinity ≤ update c reward values s := by
  obtain ⟨e, he, rfl⟩ := List.mem_map.mp ht
  refine infinity_le_add_left hr (infinity_le_sumOver (fun _ he => term_nonneg proper nonneg he) he ?_)
  exact infinity_le_mul (proper s e he).1 (proper s e he).2 infinite

omit hr in
/-- A state whose reward is infinite takes an infinite value. -/
theorem infinity_le_update_of_reward (infinite : Scalar.infinity ≤ reward s) :
    Scalar.infinity ≤ update c reward values s :=
  infinity_le_add_right infinite (sumOver_nonneg fun _ he => term_nonneg proper nonneg he)

end Update

/-! ## All rounds -/

section Table

variable (proper : c.Proper) (hr : ∀ s ∈ states, 0 ≤ reward s) (nonneg : ∀ s, 0 ≤ first.get s)
include proper hr nonneg

theorem table_nonneg (rounds : Nat) (s : Fin n) :
    0 ≤ (table c reward states first rounds).get s := by
  induction rounds generalizing s with
  | zero => exact nonneg s
  | succ rounds ih =>
    rw [table_succ, get_round]
    split
    · next hs => exact update_nonneg proper (hr s hs) ih
    · exact ih s

variable (start : ∀ s ∈ states, first.get s = 0)
include start

theorem table_le_succ (rounds : Nat) (s : Fin n) :
    (table c reward states first rounds).get s ≤ (table c reward states first (rounds + 1)).get s := by
  induction rounds generalizing s with
  | zero =>
    rw [table_succ, get_round]
    split
    · next hs =>
      show first.get s ≤ _
      rw [start s hs]
      exact update_nonneg proper (hr s hs) nonneg
    · exact le_refl (nonneg s)
  | succ rounds ih =>
    rw [table_succ, table_succ (rounds + 1), get_round, get_round]
    split
    · next hs => exact update_le_update proper (hr s hs) (table_nonneg proper hr nonneg rounds) ih
    · exact ih s

/-- **The values grow with the rounds.** -/
theorem table_le_table {rounds rounds' : Nat} (h : rounds ≤ rounds') (s : Fin n) :
    (table c reward states first rounds).get s ≤ (table c reward states first rounds').get s := by
  induction rounds', h using Nat.le_induction with
  | base => exact le_refl (table_nonneg proper hr nonneg rounds s)
  | succ rounds' _ ih =>
    exact le_trans ih (table_le_succ proper hr nonneg start rounds' s)

end Table

/-! ## Changes -/

theorem larger_nonneg {x y : α} (hx : 0 ≤ x) : 0 ≤ larger x y := by
  unfold larger
  split
  · next h => exact le_trans hx (le_of_lt h)
  · exact hx

theorem infinity_le_larger_left {x y : α} (hx : Scalar.infinity ≤ x) :
    Scalar.infinity ≤ larger x y := by
  unfold larger
  split
  · next h => exact le_trans hx (le_of_lt h)
  · exact hx

theorem infinity_le_larger_right {x y : α} (hx : 0 ≤ x) (hy : Scalar.infinity ≤ y) :
    Scalar.infinity ≤ larger x y := by
  unfold larger
  split
  · exact hy
  · next h => exact le_trans hy ((lt_or_le hx (le_trans zero_le_infinity hy)).resolve_left h)

theorem joinChange_nonneg {change : α} (h : 0 ≤ change) :
    0 ≤ joinChange c reward values change s := by
  unfold joinChange
  split
  · exact h
  · exact larger_nonneg h

theorem foldl_joinChange_nonneg {list : List (Fin n)} {change : α} (h : 0 ≤ change) :
    0 ≤ list.foldl (joinChange c reward values) change := by
  induction list generalizing change with
  | nil => exact h
  | cons t rest ih => exact ih (joinChange_nonneg h)

/-- A value that becomes infinite is an infinite change. -/
theorem infinity_le_change (hs : s ∈ states) (nonneg : 0 ≤ values.get s)
    (finite : values.get s < Scalar.infinity)
    (infinite : Scalar.infinity ≤ update c reward values s) :
    Scalar.infinity ≤ change c reward states values := by
  have later {list : List (Fin n)} {change : α} (h : Scalar.infinity ≤ change) :
      Scalar.infinity ≤ list.foldl (joinChange c reward values) change := by
    induction list generalizing change with
    | nil => exact h
    | cons t rest ih =>
      refine ih ?_
      unfold joinChange
      split
      · exact h
      · exact infinity_le_larger_left h
  obtain ⟨before, after, e⟩ := List.append_of_mem (StateSet.mem_toList.mpr hs)
  rw [change, e, List.foldl_append, List.foldl_cons]
  refine later ?_
  unfold joinChange
  rw [if_neg]
  · exact infinity_le_larger_right (foldl_joinChange_nonneg zero_le_zero)
      (infinity_le_abs_sub nonneg finite infinite)
  · intro same
    have le := Scalar.Ordered.le_iff.mpr (.inr same)
    exact not_lt_of_le (le_trans infinite le) finite

/-- **A value that is infinite when the values settle has been so before.** -/
theorem Settles.infinity_le {k : Checker α} {rounds : Nat}
    (h : k.Settles c reward states first rounds) (precise : k.precision < Scalar.infinity)
    (nonneg : 0 ≤ (table c reward states first (rounds - 1)).get s) (hs : s ∈ states)
    (infinite : Scalar.infinity ≤ (table c reward states first rounds).get s) :
    Scalar.infinity ≤ (table c reward states first (rounds - 1)).get s := by
  rcases lt_or_le nonneg zero_le_infinity with finite | le
  · obtain ⟨before, rfl⟩ : ∃ before, rounds = before + 1 := ⟨rounds - 1, by have := h.pos; omega⟩
    rw [table_succ, get_round_of_mem hs] at infinite
    have le := le_trans (infinity_le_change hs nonneg finite infinite) h.settled
    exact absurd precise (not_lt_of_le le)
  · exact le

end Checker

end HoleBlame
