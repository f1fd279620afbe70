import Mathlib.Data.Int.Log
import Mathlib.Data.Rat.Floor
import Mathlib.Tactic.Linarith
import Mathlib.Tactic.LinearCombination
import Mathlib.Tactic.Positivity
import Mathlib.Tactic.FieldSimp
import Mathlib.Tactic.Ring
import HoleBlame.Decimal.Notation
import HoleBlame.Proofs.Binary64

/-!
# Decimals that read back

A decimal is printed because `Binary.readsBack` says that it is rounded to the value it stands for, and
it is read by rounding it (`Decimal.bits`).  The two know nothing of each other: the one compares with
the ends of an interval, the other divides and looks at what is left.  That they agree is shown with
rational numbers, to which both translate.

* `Binary.compareDecimal_eq`: the comparison of natural numbers compares a decimal (`Decimal.value`) with
  a number `k * 2 ^ p`.  Measured in units of the last place of the value (`Binary.units`), the ends of
  the interval are half a unit away from the mantissa, or a quarter (`Binary.readsBack_iff`).
* `Decimal.roundDiv_eq`, `Decimal.lastPlace_eq`: what is left of a division tells how near the quotient
  is to a whole number, and the last place of a quotient follows from its logarithm.

A decimal in the interval has the last place of the value, unless the value is a power of two and the
decimal lies below it.  Then its last place is half as large, and rounding carries it over
(`Binary.nearestBits_of_readsBack`).  The decimal that is printed lies in the interval
(`Binary.readsBack_shortest`).
-/

namespace HoleBlame

theorem zpow_mul_pow_toNat {a : ℚ} (ha : a ≠ 0) (z : ℤ) :
    a ^ z * a ^ (-z).toNat = a ^ z.toNat := by
  rw [← zpow_natCast a (-z).toNat, ← zpow_natCast a z.toNat, ← zpow_add₀ ha]
  congr 1
  omega

/-! ## Comparing -/

/-- The number that a decimal stands for. -/
def Decimal.value (d : Decimal) : ℚ :=
  d.digits * 10 ^ d.exponent

namespace Binary

variable {x : Binary} {d : Decimal}

theorem compare_mul_right {u v k : ℚ} (hk : 0 < k) : compare (u * k) (v * k) = compare u v := by
  rcases lt_trichotomy u v with h | rfl | h
  · rw [compare_lt_iff_lt.mpr h, compare_lt_iff_lt.mpr (mul_lt_mul_of_pos_right h hk)]
  · rw [compare_eq_iff_eq.mpr rfl, compare_eq_iff_eq.mpr rfl]
  · rw [compare_gt_iff_gt.mpr h, compare_gt_iff_gt.mpr (mul_lt_mul_of_pos_right h hk)]

theorem compare_natCast (a b : ℕ) : compare (a : ℚ) (b : ℚ) = compare a b := by
  rcases lt_trichotomy a b with h | rfl | h
  · rw [compare_lt_iff_lt.mpr h, compare_lt_iff_lt.mpr (Nat.cast_lt.mpr h)]
  · rw [compare_eq_iff_eq.mpr rfl, compare_eq_iff_eq.mpr rfl]
  · rw [compare_gt_iff_gt.mpr h, compare_gt_iff_gt.mpr (Nat.cast_lt.mpr h)]

/-- **Comparing natural numbers compares the numbers they stand for.** -/
theorem compareDecimal_eq (d : Decimal) (k : ℕ) (p : ℤ) :
    compareDecimal d k p = compare d.value (k * 2 ^ p) := by
  have tens := zpow_mul_pow_toNat (by decide : (10 : ℚ) ≠ 0) d.exponent
  have twos := zpow_mul_pow_toNat (by decide : (2 : ℚ) ≠ 0) p
  have pos : (0 : ℚ) < 10 ^ (-d.exponent).toNat * 2 ^ (-p).toNat := by positivity
  rw [compareDecimal, ← compare_natCast, ← compare_mul_right (u := d.value) pos]
  push_cast [Decimal.value, Nat.pow_eq, ← tens, ← twos]
  congr 1 <;> ring

end Binary

/-! ## Rounding a quotient -/

namespace Decimal

/-- A quotient is rounded to a whole number within one half of it, which is even at the ends. -/
theorem roundDiv_eq {num den r : ℕ} {v : ℚ} (hden : 0 < den) (hv : (num : ℚ) = v * den)
    (low : r < v + 1 / 2 ∨ r % 2 = 0 ∧ r = v + 1 / 2)
    (high : v < r + 1 / 2 ∨ r % 2 = 0 ∧ v = r + 1 / 2) : roundDiv num den = r := by
  have hden' : (0 : ℚ) < den := by exact_mod_cast hden
  have low' : 2 * (den * r) < 2 * num + den ∨ r % 2 = 0 ∧ 2 * (den * r) = 2 * num + den := by
    refine low.imp (fun h => ?_) (And.imp_right fun h => ?_)
    · have : (2 * (den * r) : ℚ) < 2 * num + den := by rw [hv]; nlinarith
      exact_mod_cast this
    · have : (2 * (den * r) : ℚ) = 2 * num + den := by rw [hv, h]; ring
      exact_mod_cast this
  have high' : 2 * num < 2 * (den * r) + den ∨ r % 2 = 0 ∧ 2 * num = 2 * (den * r) + den := by
    refine high.imp (fun h => ?_) (And.imp_right fun h => ?_)
    · have : (2 * num : ℚ) < 2 * (den * r) + den := by rw [hv]; nlinarith
      exact_mod_cast this
    · have : (2 * num : ℚ) = 2 * (den * r) + den := by rw [hv, h]; ring
      exact_mod_cast this
  have split := Nat.div_add_mod num den
  have rest := Nat.mod_lt num hden
  unfold roundDiv
  generalize num / den = q at *
  generalize num % den = rem at *
  have le : r ≤ q + 1 := by
    by_contra h
    have := Nat.mul_le_mul_left den (show q + 2 ≤ r by omega)
    rw [Nat.mul_add] at this
    omega
  have ge : q ≤ r := by
    by_contra h
    have := Nat.mul_le_mul_left den (show r + 1 ≤ q by omega)
    rw [Nat.mul_add] at this
    omega
  obtain rfl | rfl : r = q ∨ r = q + 1 := by omega
  · simp only
    split_ifs <;> omega
  · rw [Nat.mul_add] at low' high'
    simp only
    split_ifs <;> omega

theorem numAt_eq {num den : ℕ} {v : ℚ} (hv : (num : ℚ) = v * den) (t : ℤ) :
    (numAt num t : ℚ) = v / 2 ^ t * denAt den t := by
  have twos := zpow_mul_pow_toNat (by decide : (2 : ℚ) ≠ 0) t
  have pos : (2 : ℚ) ^ t ≠ 0 := zpow_ne_zero t (by decide)
  push_cast [numAt, denAt, Nat.pow_eq, ← twos, hv]
  field_simp

/-- **The last place of a quotient is that of its largest digit, fifty-two places further up.** -/
theorem lastPlace_eq {num den : ℕ} {v : ℚ} (hnum : 0 < num) (hden : 0 < den)
    (hv : (num : ℚ) = v * den) : lastPlace num den = max (-1074) (Int.log 2 v - 52) := by
  have hden' : (0 : ℚ) < den := by exact_mod_cast hden
  have pos : 0 < v := by
    have : (0 : ℚ) < num := by exact_mod_cast hnum
    exact pos_of_mul_pos_left (hv ▸ this) hden'.le
  have two_pos (z : ℤ) : (0 : ℚ) < 2 ^ z := zpow_pos (by decide) z
  have log_eq {z : ℤ} (low : 2 ^ z ≤ v) (high : v < 2 ^ (z + 1)) : Int.log 2 v = z := by
    have := (Int.zpow_le_iff_le_log (b := 2) (by decide) pos).mp (by exact_mod_cast low)
    have := (Int.lt_zpow_iff_log_lt (b := 2) (by decide) pos).mp (by exact_mod_cast high)
    omega
  -- The logarithms of the numerator and of the denominator leave two candidates.
  obtain ⟨low, high⟩ := (Nat.log2_eq_iff hnum.ne').mp rfl
  obtain ⟨low', high'⟩ := (Nat.log2_eq_iff hden.ne').mp rfl
  set t : ℤ := (num.log2 : ℤ) - den.log2 - 53 with ht
  have lower : (2 : ℚ) ^ (t + 52) < v := by
    have h1 : (2 : ℚ) ^ (num.log2 : ℤ) ≤ num := by rw [zpow_natCast]; exact_mod_cast low
    have h2 : (den : ℚ) < 2 ^ (den.log2 + 1 : ℤ) := by
      rw [← Nat.cast_succ, zpow_natCast]; exact_mod_cast high'
    have split : (num.log2 : ℤ) = t + 52 + (den.log2 + 1) := by omega
    rw [split, zpow_add₀ (by decide), hv] at h1
    nlinarith [two_pos (t + 52)]
  have upper : v < (2 : ℚ) ^ (t + 54) := by
    have h1 : (num : ℚ) < 2 ^ (num.log2 + 1 : ℤ) := by
      rw [← Nat.cast_succ, zpow_natCast]; exact_mod_cast high
    have h2 : (2 : ℚ) ^ (den.log2 : ℤ) ≤ den := by rw [zpow_natCast]; exact_mod_cast low'
    have split : (num.log2 + 1 : ℤ) = t + 54 + den.log2 := by omega
    rw [split, zpow_add₀ (by decide), hv] at h1
    nlinarith [two_pos (t + 54)]
  have test : numAt num t < Nat.pow 2 53 * denAt den t ↔ v < 2 ^ (t + 53) := by
    have hd : (0 : ℚ) < denAt den t := by
      push_cast [denAt, Nat.pow_eq]
      positivity
    have : numAt num t < Nat.pow 2 53 * denAt den t ↔
        (numAt num t : ℚ) < 2 ^ 53 * denAt den t := by
      rw [Nat.pow_eq]
      exact_mod_cast Iff.rfl
    rw [this, numAt_eq hv, mul_lt_mul_iff_left₀ hd, div_lt_iff₀ (two_pos t), add_comm t,
      zpow_add₀ (by decide)]
    rfl
  show max (-1074) (if numAt num t < Nat.pow 2 53 * denAt den t then t else t + 1) = _
  by_cases h : v < 2 ^ (t + 53)
  · rw [if_pos (test.mpr h), log_eq (z := t + 52) lower.le (by rwa [add_assoc])]
    omega
  · rw [if_neg (test.not.mpr h), log_eq (z := t + 53) (not_lt.mp h) (by rwa [add_assoc])]
    omega

end Decimal

/-! ## The interval -/

namespace Binary

open Decimal

/-- The bits of a value without its sign. -/
def code (x : Binary) : ℕ :=
  x.mantissa + (x.exponent + 1074).toNat * 2 ^ 52

/-- Mantissa and exponent are as they are read from the bits of a finite value. -/
structure Stored (x : Binary) : Prop where
  canonical : Rounding.Canonical x.mantissa x.exponent
  finite : x.exponent ≤ 971
  narrow_iff : x.narrowBelow = true ↔ x.mantissa = 2 ^ 52 ∧ -1074 < x.exponent

variable {x : Binary} {d : Decimal}

/-- The decimal, measured in units of the last place of the value. -/
def units (x : Binary) (d : Decimal) : ℚ :=
  d.value / 2 ^ x.exponent

theorem value_eq (x : Binary) (d : Decimal) : d.value = x.units d * 2 ^ x.exponent :=
  (div_mul_cancel₀ _ (zpow_ne_zero _ (by decide))).symm

theorem compareDecimal_units (x : Binary) (d : Decimal) (k : ℕ) :
    compareDecimal d k (x.exponent - 2) = compare (x.units d) (k / 4) := by
  have pos : (0 : ℚ) < 2 ^ x.exponent := zpow_pos (by decide) _
  have quarter : (k : ℚ) * 2 ^ (x.exponent - 2) = k / 4 * 2 ^ x.exponent := by
    rw [zpow_sub₀ (by decide)]
    norm_num
    ring
  rw [compareDecimal_eq, quarter, value_eq x, compare_mul_right pos]

/-- **The interval of the decimals that read back**, in units of the last place.  Its ends belong to it
if the mantissa is even. -/
theorem readsBack_iff : x.readsBack d = true ↔
    ((((4 * x.mantissa - if x.narrowBelow then 1 else 2 : ℕ) : ℚ) / 4 < x.units d ∨
      x.mantissa % 2 = 0 ∧
        x.units d = ((4 * x.mantissa - if x.narrowBelow then 1 else 2 : ℕ) : ℚ) / 4) ∧
    (x.units d < x.mantissa + 1 / 2 ∨ x.mantissa % 2 = 0 ∧ x.units d = x.mantissa + 1 / 2)) := by
  have half : ((4 * x.mantissa + 2 : ℕ) : ℚ) / 4 = x.mantissa + 1 / 2 := by
    push_cast
    ring
  simp only [readsBack, compareDecimal_units, half, Bool.and_eq_true, Bool.or_eq_true, decide_eq_true_eq,
    compare_gt_iff_gt, compare_lt_iff_lt, compare_eq_iff_eq]

/-- A value reads back exactly. -/
theorem readsBack_of_units_eq (pos : 0 < x.mantissa) (h : x.units d = x.mantissa) :
    x.readsBack d = true := by
  rw [readsBack_iff, h]
  refine ⟨.inl ?_, .inl (by linarith)⟩
  rw [div_lt_iff₀ (by decide)]
  have : 4 * x.mantissa - (if x.narrowBelow then 1 else 2) < x.mantissa * 4 := by
    split_ifs <;> omega
  exact_mod_cast this

theorem readsBack_exact (pos : 0 < x.mantissa) : x.readsBack x.exact = true := by
  refine readsBack_of_units_eq pos ?_
  have twos : (2 : ℚ) ^ x.exponent ≠ 0 := zpow_ne_zero _ (by decide)
  rw [units, div_eq_iff twos, exact]
  split
  · next h =>
    have fives := zpow_mul_pow_toNat (by decide : (5 : ℚ) ≠ 0) x.exponent
    rw [show x.exponent.toNat = 0 by omega, pow_zero] at fives
    rw [Decimal.value, show (10 : ℚ) = 5 * 2 by norm_num, mul_zpow]
    push_cast [Nat.pow_eq]
    linear_combination (x.mantissa * 2 ^ x.exponent : ℚ) * fives
  · next h =>
    have power := zpow_mul_pow_toNat (by decide : (2 : ℚ) ≠ 0) x.exponent
    rw [show (-x.exponent).toNat = 0 by omega, pow_zero, mul_one] at power
    rw [Decimal.value, zpow_zero, power]
    push_cast [Nat.pow_eq]
    ring

theorem readsBack_of_onGrid? {e : ℤ} (h : x.onGrid? e = some d) : x.readsBack d = true := by
  unfold onGrid? at h
  simp only at h
  split at h
  · next below above =>
    split at h <;> cases h
    · exact below
    · exact above
  · next below _ => exact Option.some.inj h ▸ below
  · next _ above => exact Option.some.inj h ▸ above
  · cases h

/-- **The decimal that is printed reads back.** -/
theorem readsBack_shortest (pos : 0 < x.mantissa) : x.readsBack x.shortest = true := by
  unfold shortest
  simp only
  cases h : (List.range 17).findSome? fun (n : ℕ) => x.onGrid? (x.scale - 1 - n) with
  | none => exact readsBack_exact pos
  | some d =>
    obtain ⟨n, -, hn⟩ := List.exists_of_findSome?_eq_some h
    exact readsBack_of_onGrid? hn

/-! ## Rounding a decimal that reads back -/

theorem nearestBits_of_lastPlace {num den r : ℕ} {t : ℤ} {v : ℚ} (hden : 0 < den)
    (hv : (num : ℚ) = v * 2 ^ t * den) (last : lastPlace num den = t)
    (low : r < v + 1 / 2 ∨ r % 2 = 0 ∧ r = v + 1 / 2)
    (high : v < r + 1 / 2 ∨ r % 2 = 0 ∧ v = r + 1 / 2) :
    nearestBits num den = min (r + (t + 1074).toNat * 2 ^ 52) infinityBits := by
  have twos : (2 : ℚ) ^ t ≠ 0 := zpow_ne_zero _ (by decide)
  have hden' : 0 < denAt den t := Nat.mul_pos hden (Nat.two_pow_pos _)
  have scaled := numAt_eq hv t
  rw [mul_div_cancel_right₀ _ twos] at scaled
  rw [nearestBits, last, roundDiv_eq hden' scaled low high]
  rfl

theorem log_lt {k : ℤ} (pos : 0 < d.value) (h : x.units d < 2 ^ k) :
    Int.log 2 d.value < k + x.exponent := by
  refine (Int.lt_zpow_iff_log_lt (b := 2) (by decide) pos).mp ?_
  rw [Nat.cast_ofNat, zpow_add₀ (by decide), value_eq x]
  exact mul_lt_mul_of_pos_right h (zpow_pos (by decide) _)

theorem le_log {k : ℤ} (pos : 0 < d.value) (h : 2 ^ k ≤ x.units d) :
    k + x.exponent ≤ Int.log 2 d.value := by
  refine (Int.zpow_le_iff_le_log (b := 2) (by decide) pos).mp ?_
  rw [Nat.cast_ofNat, zpow_add₀ (by decide), value_eq x]
  exact mul_le_mul_of_nonneg_right h (zpow_pos (by decide) _).le

theorem Stored.code_le (stored : x.Stored) (pos : 0 < x.mantissa) : x.code ≤ infinityBits := by
  have := (Rounding.code_finite pos stored.canonical stored.finite).2
  unfold code infinityBits
  unfold Rounding.infinityCode at this
  omega

/-- The lower end of the interval lies half a last place below the value, or less. -/
theorem low_of_readsBack (pos : 0 < x.mantissa) (h : x.readsBack d = true) :
    (x.mantissa : ℚ) < x.units d + 1 / 2 ∨
      x.mantissa % 2 = 0 ∧ (x.mantissa : ℚ) = x.units d + 1 / 2 := by
  have low := (readsBack_iff.mp h).1
  rw [Nat.cast_sub (by split_ifs <;> omega)] at low
  push_cast at low
  split_ifs at low
  · rcases low with low | ⟨-, low⟩ <;> exact .inl (by linarith)
  · exact low.imp (fun h => by linarith) (And.imp_right fun h => by linarith)

/-- Below a power of two that is the value, the interval is half as wide. -/
theorem low_of_narrow (power : x.mantissa = 2 ^ 52) (narrow : x.narrowBelow = true)
    (h : x.readsBack d = true) : (2 ^ 52 : ℚ) ≤ x.units d + 1 / 4 := by
  have low := (readsBack_iff.mp h).1
  rw [narrow, if_pos rfl, power] at low
  push_cast at low
  rcases low with h | ⟨-, h⟩ <;> linarith

/-- **A decimal that reads back is rounded to the value.**  If the value is a power of two and the
decimal lies below it, its last place is half that of the value, and rounding carries it over. -/
theorem nearestBits_of_readsBack {num den : ℕ} (pos : 0 < x.mantissa) (stored : x.Stored)
    (hden : 0 < den) (hd : (num : ℚ) = d.value * den) (h : x.readsBack d = true) :
    nearestBits num den = x.code := by
  have low := low_of_readsBack pos h
  have high := (readsBack_iff.mp h).2
  have finite := stored.code_le pos
  obtain ⟨⟨lt, le, normal⟩, -, narrow_iff⟩ := stored
  have one_le : (1 : ℚ) ≤ x.mantissa := by exact_mod_cast pos
  have le_limit : (x.mantissa : ℚ) + 1 ≤ 2 ^ 53 := by exact_mod_cast lt
  have lower : (x.mantissa : ℚ) ≤ x.units d + 1 / 2 := by
    rcases low with h | ⟨-, h⟩ <;> linarith
  have upper : x.units d ≤ x.mantissa + 1 / 2 := by
    rcases high with h | ⟨-, h⟩ <;> linarith
  have value_pos : 0 < d.value := by
    rw [value_eq x]
    exact mul_pos (by linarith) (zpow_pos (by decide) _)
  have num_pos : 0 < num := by
    have : (0 : ℚ) < num := hd ▸ mul_pos value_pos (by exact_mod_cast hden)
    exact_mod_cast this
  have last := lastPlace_eq num_pos hden hd
  have small := log_lt (x := x) (k := 53) value_pos (by norm_num; linarith)
  by_cases same : max (-1074) (Int.log 2 d.value - 52) = x.exponent
  · -- Decimal and value have the same last place.
    rw [nearestBits_of_lastPlace hden (value_eq x d ▸ hd) (last.trans same) low high]
    exact Nat.min_eq_left finite
  · have large : 2 ^ 52 ≤ x.mantissa := normal.resolve_right fun h => same (by omega)
    have below : x.units d < 2 ^ 52 := by
      by_contra h
      have := le_log (k := 52) value_pos (not_lt.mp h)
      omega
    have power : x.mantissa = 2 ^ 52 := by
      have : (x.mantissa : ℚ) < 2 ^ 52 + 1 := by linarith
      have : x.mantissa < 2 ^ 52 + 1 := by exact_mod_cast this
      omega
    have quarter := low_of_narrow power (narrow_iff.mpr ⟨power, by omega⟩) h
    have big := le_log (x := x) (k := 51) value_pos (by norm_num; linarith)
    have tiny := log_lt (k := 52) value_pos below
    have previous : max (-1074) (Int.log 2 d.value - 52) = x.exponent - 1 := by omega
    have halved : d.value = x.units d * 2 * 2 ^ (x.exponent - 1) := by
      rw [zpow_sub_one₀ (by decide), value_eq x]
      ring
    have low' : ((2 ^ 53 : ℕ) : ℚ) < x.units d * 2 + 1 / 2 ∨
        2 ^ 53 % 2 = 0 ∧ ((2 ^ 53 : ℕ) : ℚ) = x.units d * 2 + 1 / 2 := by
      push_cast
      exact quarter.lt_or_eq.imp (fun h => by linarith) fun h => ⟨by decide, by linarith⟩
    have high' : x.units d * 2 < ((2 ^ 53 : ℕ) : ℚ) + 1 / 2 := by
      push_cast
      linarith
    rw [nearestBits_of_lastPlace hden (halved ▸ hd) (last.trans previous) low' (.inl high'),
      ← Nat.min_eq_left finite, code, power]
    congr 1
    omega

/-- Three bits are fewer than a decimal digit tells. -/
theorem log_value_le (pos : 0 < d.value) (h : d.exponent ≤ 0) :
    Int.log 2 d.value ≤ d.digits.log2 + 3 * d.exponent := by
  refine Int.lt_add_one_iff.mp ((Int.lt_zpow_iff_log_lt (b := 2) (by decide) pos).mp ?_)
  have digits : (d.digits : ℚ) < 2 ^ (d.digits.log2 + 1 : ℤ) := by
    rw [← Nat.cast_succ, zpow_natCast]
    exact_mod_cast Nat.lt_log2_self
  have tens : (10 : ℚ) ^ d.exponent ≤ 2 ^ (3 * d.exponent) := by
    obtain ⟨n, hn⟩ : ∃ n : ℕ, d.exponent = -n := ⟨(-d.exponent).toNat, by omega⟩
    rw [zpow_mul, hn, zpow_neg, zpow_neg, zpow_natCast, zpow_natCast]
    refine inv_anti₀ (by positivity) (pow_le_pow_left₀ (by positivity) (by norm_num) n)
  calc d.value ≤ d.digits * 2 ^ (3 * d.exponent) := mul_le_mul_of_nonneg_left tens (by positivity)
    _ < 2 ^ (d.digits.log2 + 1 : ℤ) * 2 ^ (3 * d.exponent) :=
        mul_lt_mul_of_pos_right digits (zpow_pos (by decide) _)
    _ = (2 : ℕ) ^ (d.digits.log2 + 3 * d.exponent + 1) := by
        rw [← zpow_add₀ (by decide), Nat.cast_ofNat]
        congr 1
        omega

theorem le_log_value (digits : 0 < d.digits) (h : 0 ≤ d.exponent) :
    3 * d.exponent ≤ Int.log 2 d.value := by
  have pos : 0 < d.value := mul_pos (by exact_mod_cast digits) (zpow_pos (by decide) _)
  refine (Int.zpow_le_iff_le_log (b := 2) (by decide) pos).mp ?_
  obtain ⟨n, hn⟩ := Int.eq_ofNat_of_zero_le h
  have one_le : (1 : ℚ) ≤ d.digits := by exact_mod_cast digits
  rw [Decimal.value, hn, zpow_mul, zpow_natCast, zpow_natCast]
  calc ((((2 : ℕ) : ℚ) ^ (3 : ℤ)) ^ n) ≤ 10 ^ n := pow_le_pow_left₀ (by positivity) (by norm_num) n
    _ ≤ d.digits * 10 ^ n := le_mul_of_one_le_left (by positivity) one_le

/-- **The bits of a decimal that reads back are those of the value.**  The limits beyond which a decimal
is not written out are not reached. -/
theorem bits_of_readsBack (pos : 0 < x.mantissa) (stored : x.Stored) (h : x.readsBack d = true) :
    d.bits = x.code := by
  have lower : (1 : ℚ) / 2 ≤ x.units d := by
    have one_le : (1 : ℚ) ≤ x.mantissa := by exact_mod_cast pos
    rcases low_of_readsBack pos h with h | ⟨-, h⟩ <;> linarith
  have upper : x.units d < 2 ^ 53 := by
    have le_limit : (x.mantissa : ℚ) + 1 ≤ 2 ^ 53 := by exact_mod_cast stored.canonical.lt
    rcases (readsBack_iff.mp h).2 with h | ⟨-, h⟩ <;> linarith
  have value_pos : 0 < d.value := by
    rw [value_eq x]
    exact mul_pos (by linarith) (zpow_pos (by decide) _)
  have digits_pos : 0 < d.digits := by
    refine Nat.pos_of_ne_zero fun zero => ?_
    rw [Decimal.value, zero, Nat.cast_zero, zero_mul] at value_pos
    exact lt_irrefl _ value_pos
  have le_log := le_log (x := x) (k := -1) value_pos (by norm_num; linarith)
  have log_lt := log_lt (x := x) (k := 53) value_pos upper
  obtain ⟨-, le, -⟩ := stored.canonical
  have le' := stored.finite
  rw [Decimal.bits, if_neg, if_neg]
  · refine nearestBits_of_readsBack pos stored (Nat.pow_pos (by decide)) ?_ h
    have tens := zpow_mul_pow_toNat (by decide : (10 : ℚ) ≠ 0) d.exponent
    push_cast [Decimal.value, Nat.pow_eq, ← tens]
    ring
  · intro large
    have := le_log_value digits_pos (by omega)
    omega
  · rintro (zero | small)
    · exact digits_pos.ne' zero
    · have := log_value_le value_pos (by omega)
      omega

end Binary

end HoleBlame
