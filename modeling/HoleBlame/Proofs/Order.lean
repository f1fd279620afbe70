import HoleBlame.Property
import Mathlib.Data.Prod.Lex
import Mathlib.Algebra.Order.Ring.Int

/-!
# The order of numbers

What the analysis of a chain needs of its numbers is how they compare.  `Scalar.Ordered` lists the laws: the
strict order is transitive and irreflexive, equal numbers compare alike, and zero, the half and one
stand in this order.  Nothing is said of undefined values but that the laws hold of them too, and they
do because nothing compares with them.

Binary64 numbers obey the laws.  Every number but the undefined one has a `rank` in a linear order, so
that numbers compare as their ranks do (`Rank.exists_compares`).

A bound on a value is monotone in the value (`Comparison.holds_of_lt`): an upper bound that holds
goes on holding below, and a lower bound above.
-/

namespace HoleBlame

/-- The laws of comparing numbers. -/
class Scalar.Ordered (α : Type) [Scalar α] : Prop where
  lt_irrefl : ∀ x : α, ¬ x < x
  lt_trans : ∀ {x y z : α}, x < y → y < z → x < z
  le_iff : ∀ {x y : α}, x ≤ y ↔ x < y ∨ (x == y) = true
  lt_of_lt_of_beq : ∀ {x y z : α}, x < y → (y == z) = true → x < z
  lt_of_beq_of_lt : ∀ {x y z : α}, (x == y) = true → y < z → x < z
  zero_lt_half : (0 : α) < Scalar.half
  half_lt_one : (Scalar.half : α) < 1

namespace Scalar.Ordered

variable {α : Type} [Scalar α] [Scalar.Ordered α]

protected theorem zero_lt_one : (0 : α) < 1 :=
  Scalar.Ordered.lt_trans Scalar.Ordered.zero_lt_half Scalar.Ordered.half_lt_one

end Scalar.Ordered

/-! ## Bounds are monotone -/

namespace Comparison

variable {α : Type} [Scalar α] [Scalar.Ordered α]

/-- **A bound is monotone in its value**: an upper bound that holds of a value holds of every smaller
one, and a lower bound that holds of a value holds of every larger one. -/
theorem holds_of_lt {c : Comparison} {x y t : α} (h : x < y) :
    (c.isUpper = true → c.holds y t = true → c.holds x t = true) ∧
      (c.isUpper = false → c.holds x t = true → c.holds y t = true) := by
  cases c with
  | less =>
    refine ⟨fun _ hy => ?_, fun hc => by cases hc⟩
    simp only [holds, decide_eq_true_eq] at hy ⊢
    exact Scalar.Ordered.lt_trans h hy
  | lessEqual =>
    refine ⟨fun _ hy => ?_, fun hc => by cases hc⟩
    simp only [holds, decide_eq_true_eq, Scalar.Ordered.le_iff] at hy ⊢
    rcases hy with hy | hy
    · exact .inl (Scalar.Ordered.lt_trans h hy)
    · exact .inl (Scalar.Ordered.lt_of_lt_of_beq h hy)
  | greater =>
    refine ⟨fun hc => by (cases hc), fun _ hx => ?_⟩
    simp only [holds, decide_eq_true_eq] at hx ⊢
    exact Scalar.Ordered.lt_trans hx h
  | greaterEqual =>
    refine ⟨fun hc => by (cases hc), fun _ hx => ?_⟩
    simp only [holds, decide_eq_true_eq, Scalar.Ordered.le_iff] at hx ⊢
    rcases hx with hx | hx
    · exact .inl (Scalar.Ordered.lt_trans hx h)
    · exact .inl (Scalar.Ordered.lt_of_beq_of_lt hx h)

end Comparison

/-! ## Binary64 numbers -/

namespace Rank

open Float.Model (UnpackedFloat)

/-- The ranks: the sign and kind of a number first, then its exponent, then its mantissa. -/
abbrev Ranks : Type := ℤ ×ₗ ℤ ×ₗ ℤ

/-- The rank with the given parts. -/
def mk (kind exponent mantissa : ℤ) : Ranks :=
  toLex (kind, toLex (exponent, mantissa))

/-- Where a number stands; an undefined one stands nowhere. -/
def rank : UnpackedFloat → Option Ranks
  | .notANumber => none
  | .infinity .negative => some (mk (-2) 0 0)
  | .finite .negative m e _ => some (mk (-1) (-e) (-m))
  | .zero _ => some (mk 0 0 0)
  | .finite .positive m e _ => some (mk 1 e m)
  | .infinity .positive => some (mk 2 0 0)

theorem mk_lt_mk {k e m k' e' m' : ℤ} :
    mk k e m < mk k' e' m' ↔ k < k' ∨ k = k' ∧ (e < e' ∨ e = e' ∧ m < m') := by
  simp [mk, Prod.Lex.toLex_lt_toLex]

theorem mk_inj {k e m k' e' m' : ℤ} :
    mk k e m = mk k' e' m' ↔ k = k' ∧ e = e' ∧ m = m' := by
  simp [mk]

/-- Numbers of one sign compare by their exponents and then by their mantissas. -/
theorem compares_then (k e e' : ℤ) (m m' : ℕ) :
    ((compare e e').then (compare m m')).Compares (mk k e m) (mk k e' m') := by
  rcases lt_trichotomy e e' with h | rfl | h
  · rw [compare_lt_iff_lt.mpr h]
    exact mk_lt_mk.mpr (.inr ⟨rfl, .inl h⟩)
  · rw [compare_eq_iff_eq.mpr rfl]
    rcases lt_trichotomy m m' with h | rfl | h
    · rw [Nat.compare_eq_lt.mpr h]
      exact mk_lt_mk.mpr (.inr ⟨rfl, .inr ⟨rfl, by omega⟩⟩)
    · rw [Nat.compare_eq_eq.mpr rfl]
      exact rfl
    · rw [Nat.compare_eq_gt.mpr h]
      exact mk_lt_mk.mpr (.inr ⟨rfl, .inr ⟨rfl, by omega⟩⟩)
  · rw [compare_gt_iff_gt.mpr h]
    exact mk_lt_mk.mpr (.inr ⟨rfl, .inl h⟩)

/-- Numbers of the other sign compare the other way round. -/
theorem compares_neg {o : Ordering} {k e e' m m' : ℤ} (h : o.Compares (mk k e m) (mk k e' m')) :
    o.Compares (mk k (-e') (-m')) (mk k (-e) (-m)) := by
  cases o with
  | lt =>
    have := mk_lt_mk.mp h
    exact mk_lt_mk.mpr (by omega)
  | eq =>
    obtain ⟨-, rfl, rfl⟩ := mk_inj.mp h
    exact rfl
  | gt =>
    have := mk_lt_mk.mp h
    exact mk_lt_mk.mpr (by omega)

/-- **Numbers compare as their ranks do.** -/
theorem exists_compares {x y : UnpackedFloat} {a b : Ranks} (ha : rank x = some a)
    (hb : rank y = some b) : ∃ o, x.compare y = some o ∧ o.Compares a b := by
  rcases x with (_ | _) | _ | _ | ⟨_ | _, m, e, _⟩ <;>
    rcases y with (_ | _) | _ | _ | ⟨_ | _, m', e', _⟩ <;>
    cases ha <;> cases hb
  case finite.negative.finite.negative.refl.refl =>
    exact ⟨_, rfl, Ordering.compares_swap.mpr (compares_neg (compares_then _ e e' m m'))⟩
  case finite.positive.finite.positive.refl.refl =>
    exact ⟨_, rfl, compares_then _ e e' m m'⟩
  -- In all other cases the kinds of the numbers decide.
  all_goals
    first
      | exact ⟨_, rfl, rfl⟩
      | exact ⟨_, rfl, mk_lt_mk.mpr (.inl (by decide))⟩

theorem exists_rank {x : UnpackedFloat} (h : x ≠ .notANumber) : ∃ a, rank x = some a := by
  rcases x with (_ | _) | _ | _ | ⟨_ | _, m, e, _⟩
  case notANumber => exact absurd rfl h
  all_goals exact ⟨_, rfl⟩

/-- Only numbers compare. -/
theorem ne_notANumber {x y : UnpackedFloat} {o : Ordering} (h : x.compare y = some o) :
    x ≠ .notANumber ∧ y ≠ .notANumber := by
  constructor
  · rintro rfl
    cases h
  · rintro rfl
    cases x <;> cases h

/-- Numbers compare in some way iff both have a rank, and their ranks compare in this way. -/
theorem compare_eq_some {x y : UnpackedFloat} {o : Ordering} :
    x.compare y = some o ↔ ∃ a b, rank x = some a ∧ rank y = some b ∧ o.Compares a b := by
  constructor
  · intro h
    obtain ⟨hx, hy⟩ := ne_notANumber h
    obtain ⟨a, ha⟩ := exists_rank hx
    obtain ⟨b, hb⟩ := exists_rank hy
    obtain ⟨o', h', hc⟩ := exists_compares ha hb
    rw [h] at h'
    cases h'
    exact ⟨a, b, ha, hb, hc⟩
  · rintro ⟨a, b, ha, hb, hc⟩
    obtain ⟨o', h', hc'⟩ := exists_compares ha hb
    rw [h', hc.inj hc']

theorem lt_iff_compare {x y : Float} :
    x < y ↔ x.toModel.unpack.compare y.toModel.unpack = some .lt := by
  show decide ((x.toModel.unpack.compare y.toModel.unpack == some .lt) = true) = true ↔ _
  rw [decide_eq_true_eq, beq_iff_eq]

theorem beq_iff_compare {x y : Float} :
    (x == y) = true ↔ x.toModel.unpack.compare y.toModel.unpack = some .eq := by
  show (x.toModel.unpack.compare y.toModel.unpack == some .eq) = true ↔ _
  rw [beq_iff_eq]

theorem le_iff_compare {x y : Float} :
    x ≤ y ↔ x.toModel.unpack.compare y.toModel.unpack = some .lt ∨
      x.toModel.unpack.compare y.toModel.unpack = some .eq := by
  show decide ((x.toModel.unpack.compare y.toModel.unpack).any (·.isLE) = true) = true ↔ _
  rw [decide_eq_true_eq, Option.any_eq_true]
  constructor
  · rintro ⟨o, h, ho⟩
    cases o with
    | lt => exact .inl h
    | eq => exact .inr h
    | gt => cases ho
  · rintro (h | h)
    · exact ⟨.lt, h, rfl⟩
    · exact ⟨.eq, h, rfl⟩

end Rank

open Rank in
/-- **Binary64 numbers obey the laws of comparing.** -/
instance : Scalar.Ordered Float where
  lt_irrefl x h := by
    obtain ⟨a, b, ha, hb, hab⟩ := compare_eq_some.mp (lt_iff_compare.mp h)
    rw [ha] at hb
    exact absurd (Option.some.inj hb) (ne_of_lt hab)
  lt_trans h h' := by
    obtain ⟨a, b, ha, hb, hab⟩ := compare_eq_some.mp (lt_iff_compare.mp h)
    obtain ⟨b', c, hb', hc, hbc⟩ := compare_eq_some.mp (lt_iff_compare.mp h')
    obtain rfl : b = b' := Option.some.inj (hb.symm.trans hb')
    exact lt_iff_compare.mpr (compare_eq_some.mpr ⟨a, c, ha, hc, lt_trans hab hbc⟩)
  le_iff := by
    intro x y
    rw [le_iff_compare, ← lt_iff_compare, ← beq_iff_compare]
  lt_of_lt_of_beq h h' := by
    obtain ⟨a, b, ha, hb, hab⟩ := compare_eq_some.mp (lt_iff_compare.mp h)
    obtain ⟨b', c, hb', hc, rfl⟩ := compare_eq_some.mp (beq_iff_compare.mp h')
    obtain rfl : b = b' := Option.some.inj (hb.symm.trans hb')
    exact lt_iff_compare.mpr (compare_eq_some.mpr ⟨a, b, ha, hc, hab⟩)
  lt_of_beq_of_lt h h' := by
    obtain ⟨a, b, ha, hb, rfl⟩ := compare_eq_some.mp (beq_iff_compare.mp h)
    obtain ⟨b', c, hb', hc, hbc⟩ := compare_eq_some.mp (lt_iff_compare.mp h')
    obtain rfl : a = b' := Option.some.inj (hb.symm.trans hb')
    exact lt_iff_compare.mpr (compare_eq_some.mpr ⟨a, c, ha, hc, hbc⟩)
  zero_lt_half := by decide +kernel
  half_lt_one := by decide +kernel

end HoleBlame
