import Mathlib.Logic.Function.Iterate
import Mathlib.Data.Nat.Log
import Mathlib.Algebra.Order.Ring.Nat

/-!
# Rounding keeps the order

The arithmetic of binary64 numbers calculates exactly and rounds once, to the number `m * 2 ^ e`.  The
mantissa is shifted until its exponent can be stored, and of what is cut off two bits remain, enough
to find the nearest mantissa (`Rounding.nearest`).  Rounding may carry the mantissa over to one more
bit, so it is shifted a second time.

The bits that come out, read as a natural number, tell more than the parts do: up to the bits of the
infinite number, where they end, they grow with the number that is rounded.  `Rounding.encode` is what
they would be without an end.  It depends on the number alone (`Rounding.encode_mul_two_pow`), it grows
with the number (`Rounding.encode_le_encode`), and it says what is packed
(`Rounding.toNat_pack_round`).
-/

namespace HoleBlame.Rounding

open Float.Model (Format totalExponent UnpackedFloat)
open Float.Model.UnpackedFloat

/-! ## Rounding a mantissa -/

/-- A mantissa and the two bits that tell what has been cut off, as one number. -/
def weight (em : ExtendedMantissa) : ℕ :=
  4 * em.mantissa + 2 * em.roundBit.toNat + em.stickyBit.toNat

theorem weight_shiftRightOne (em : ExtendedMantissa) :
    weight em.shiftRightOne = 2 * (weight em / 4) + min 1 (weight em % 4) := by
  obtain ⟨m, r, s⟩ := em
  have parity : (m % 2 != 0).toNat = m % 2 := by
    rcases Nat.mod_two_eq_zero_or_one m with h | h <;> rw [h] <;> rfl
  simp only [weight, ExtendedMantissa.shiftRightOne, parity]
  cases r <;> cases s <;> simp only [Bool.or_true, Bool.or_false, Bool.or_self, Bool.toNat_true,
    Bool.toNat_false] <;> omega

theorem roundedMantissa_eq (em : ExtendedMantissa) : em.roundedMantissa =
    weight em / 4 +
      if weight em % 4 < 2 then 0 else if weight em % 4 = 2 then weight em / 4 % 2 else 1 := by
  obtain ⟨m, r, s⟩ := em
  have quotient {c : ℕ} (hc : c < 4) : (4 * m + c) / 4 = m ∧ (4 * m + c) % 4 = c := by omega
  cases r <;> cases s <;>
    simp [weight, add_assoc, quotient, ExtendedMantissa.roundedMantissa, ExtendedMantissa.accuracy,
      Accuracy.roundToNearestEven]

theorem weight_shift_le {em em' : ExtendedMantissa} (h : weight em ≤ weight em') (k : ℕ) :
    weight (ExtendedMantissa.shiftRightOne^[k] em) ≤
      weight (ExtendedMantissa.shiftRightOne^[k] em') := by
  induction k with
  | zero => exact h
  | succ k ih =>
    rw [Function.iterate_succ_apply', Function.iterate_succ_apply', weight_shiftRightOne,
      weight_shiftRightOne]
    omega

theorem roundedMantissa_le {em em' : ExtendedMantissa} (h : weight em ≤ weight em') :
    em.roundedMantissa ≤ em'.roundedMantissa := by
  rw [roundedMantissa_eq, roundedMantissa_eq]
  split_ifs <;> omega

/-- The natural number that is nearest to `m / 2 ^ k`, the even one of two. -/
def nearest (m k : ℕ) : ℕ :=
  (ExtendedMantissa.shiftRightOne^[k] (.ofMantissaAndAccuracy m .exact)).roundedMantissa

theorem nearest_zero (m : ℕ) : nearest m 0 = m := rfl

theorem nearest_le_nearest {m m' : ℕ} (h : m ≤ m') (k : ℕ) : nearest m k ≤ nearest m' k := by
  refine roundedMantissa_le (weight_shift_le ?_ k)
  simp only [weight, ExtendedMantissa.ofMantissaAndAccuracy]
  omega

/-- Bits that are zero can be cut off. -/
theorem nearest_mul_two_pow (m k j : ℕ) : nearest (m * 2 ^ j) (k + j) = nearest m k := by
  have shift (m : ℕ) : ExtendedMantissa.shiftRightOne (.ofMantissaAndAccuracy (m * 2) .exact) =
      .ofMantissaAndAccuracy m .exact := by
    simp [ExtendedMantissa.shiftRightOne, ExtendedMantissa.ofMantissaAndAccuracy]
  induction j with
  | zero => rw [pow_zero, mul_one, add_zero]
  | succ j ih =>
    rw [← ih, nearest, nearest, ← add_assoc, Function.iterate_succ_apply, pow_succ, ← mul_assoc, shift]

theorem nearest_le {m k : ℕ} (h : m < 2 ^ (k + 53)) : nearest m k ≤ 2 ^ 53 := by
  calc nearest m k ≤ nearest (2 ^ 53 * 2 ^ k) (0 + k) := by
        rw [zero_add]
        exact nearest_le_nearest (by rw [← pow_add, add_comm]; exact h.le) k
    _ = 2 ^ 53 := by rw [nearest_mul_two_pow, nearest_zero]

theorem le_nearest {m k : ℕ} (h : 2 ^ (k + 52) ≤ m) : 2 ^ 52 ≤ nearest m k := by
  calc 2 ^ 52 = nearest (2 ^ 52 * 2 ^ k) (0 + k) := by rw [nearest_mul_two_pow, nearest_zero]
    _ ≤ nearest m k := by
        rw [zero_add]
        exact nearest_le_nearest (by rw [← pow_add, add_comm]; exact h) k

/-! ## Codes -/

/-- The exponent with which the number `m * 2 ^ e` is stored. -/
def target (m : ℕ) (e : ℤ) : ℤ :=
  max (m.log2 + e - 52) (-1074)

theorem targetExponent_eq (m : ℕ) (e : ℤ) :
    Format.binary64.targetExponent (totalExponent m e) = target m e := by
  show max ((m.log2 + 1 : ℕ) + e - 53) (-1074) = max (m.log2 + e - 52) (-1074)
  omega

/-- The bits of the number nearest to `m * 2 ^ e`, as if exponents had no limit. -/
def encode (m : ℕ) (e : ℤ) : ℕ :=
  (target m e + 1074).toNat * 2 ^ 52 + nearest m (target m e - e).toNat

theorem log2_mul_two_pow {m : ℕ} (hm : 0 < m) (a : ℕ) : (m * 2 ^ a).log2 = m.log2 + a := by
  rw [Nat.log2_eq_iff (Nat.ne_of_gt (Nat.mul_pos hm (Nat.two_pow_pos a)))]
  obtain ⟨lower, upper⟩ := (Nat.log2_eq_iff hm.ne').mp rfl
  constructor
  · rw [pow_add]
    exact Nat.mul_le_mul_right _ lower
  · rw [add_right_comm, pow_add]
    exact Nat.mul_lt_mul_of_pos_right upper (Nat.two_pow_pos a)

theorem target_mul_two_pow {m : ℕ} (hm : 0 < m) (e : ℤ) (a : ℕ) :
    target (m * 2 ^ a) (e - a) = target m e := by
  rw [target, target, log2_mul_two_pow hm]
  congr 1
  omega

/-- A code depends on the number alone. -/
theorem encode_mul_two_pow {m : ℕ} (hm : 0 < m) {e : ℤ} (he : e ≤ target m e) (a : ℕ) :
    encode (m * 2 ^ a) (e - a) = encode m e := by
  have shift : (target m e - (e - a)).toNat = (target m e - e).toNat + a := by omega
  rw [encode, encode, target_mul_two_pow hm, shift, nearest_mul_two_pow]

theorem log2_le_log2 {m m' : ℕ} (h : m ≤ m') : m.log2 ≤ m'.log2 := by
  rw [Nat.log2_eq_log_two, Nat.log2_eq_log_two]
  exact Nat.log_mono_right h

theorem target_le_target {m m' : ℕ} (h : m ≤ m') (e : ℤ) : target m e ≤ target m' e := by
  have := log2_le_log2 h
  unfold target
  omega

/-- A mantissa rounds to at most the least one with the next exponent. -/
theorem nearest_target_le {m : ℕ} {e : ℤ} (he : e ≤ target m e) :
    nearest m (target m e - e).toNat ≤ 2 ^ 53 := by
  refine nearest_le (Nat.lt_log2_self.trans_le (Nat.pow_le_pow_right two_pos ?_))
  unfold target at he ⊢
  omega

/-- A mantissa rounds to one of full length, unless the exponent is the least one. -/
theorem le_nearest_target {m : ℕ} {e : ℤ} (hm : 0 < m) (he : e ≤ target m e) (h : target m e ≠ -1074) :
    2 ^ 52 ≤ nearest m (target m e - e).toNat := by
  have positive : target m e = m.log2 + e - 52 := by
    unfold target at h ⊢
    omega
  refine le_nearest ((Nat.pow_le_pow_right two_pos ?_).trans (Nat.log2_self_le hm.ne'))
  omega

/-- **Larger numbers have larger codes.** -/
theorem encode_le_encode {m m' : ℕ} (hm : 0 < m) (h : m ≤ m') {e : ℤ} (he : e ≤ target m e) :
    encode m e ≤ encode m' e := by
  have targets := target_le_target h e
  rcases targets.eq_or_lt with same | lt
  · rw [encode, encode, same]
    exact Nat.add_le_add_left (nearest_le_nearest h _) _
  · have smallest : -1074 ≤ target m e := le_max_right _ _
    have upper := nearest_target_le he
    have lower := le_nearest_target (hm.trans_le h) (he.trans targets) (by omega)
    have step : (target m e + 1074).toNat + 1 ≤ (target m' e + 1074).toNat := by omega
    calc encode m e ≤ (target m e + 1074).toNat * 2 ^ 52 + 2 ^ 53 := Nat.add_le_add_left upper _
      _ = ((target m e + 1074).toNat + 1) * 2 ^ 52 + 2 ^ 52 := by omega
      _ ≤ encode m' e := Nat.add_le_add (Nat.mul_le_mul_right _ step) lower

/-! ## Packing -/

/-- The bits of the infinite number. -/
def infinityCode : ℕ := 2047 * 2 ^ 52

theorem infinityCode_pos : 0 < infinityCode := by decide

theorem toNat_packSigned (s : Sign) (e : BitVec 11) (m : BitVec 52) :
    (packComponents Format.binary64 s e m).toNat =
      s.toBitVec.toNat * 2 ^ 63 + e.toNat * 2 ^ 52 + m.toNat := by
  have front : ((s.toBitVec : BitVec 1) ++ e).toNat = s.toBitVec.toNat * 2 ^ 11 + e.toNat := by
    rw [BitVec.toNat_append, ← Nat.shiftLeft_add_eq_or_of_lt e.isLt, Nat.shiftLeft_eq]
  show ((s.toBitVec ++ e : BitVec (1 + 11)) ++ m).toNat = _
  rw [BitVec.toNat_append, front, ← Nat.shiftLeft_add_eq_or_of_lt m.isLt, Nat.shiftLeft_eq]
  omega

theorem toNat_packComponents (e : BitVec 11) (m : BitVec 52) :
    (packComponents Format.binary64 .positive e m).toNat = e.toNat * 2 ^ 52 + m.toNat := by
  rw [toNat_packSigned, show Sign.positive.toBitVec.toNat = 0 from rfl, Nat.zero_mul, Nat.zero_add]

/-- The mantissa and the exponent are as they have to be for storing. -/
structure Canonical (m : ℕ) (e : ℤ) : Prop where
  lt : m < 2 ^ 53
  le : -1074 ≤ e
  normal : 2 ^ 52 ≤ m ∨ e = -1074

theorem toNat_pack {m : ℕ} {e : ℤ} (hm : 0 < m) (h : Canonical m e) :
    (pack Format.binary64 (.finite .positive m e hm)).toNat =
      min ((e + 1074).toNat * 2 ^ 52 + m) infinityCode := by
  have he := h.le
  have hlt := h.lt
  have normal_iff : m.log2 + 1 = Format.binary64.mantissaBits ↔ 2 ^ 52 ≤ m := by
    rw [← Nat.le_log2 hm.ne']
    have : m.log2 < 53 := (Nat.log2_lt hm.ne').mpr h.lt
    show m.log2 + 1 = 53 ↔ _
    omega
  have biased : (e + Format.binary64.exponentBias + Format.binary64.mantissaBitsWithoutImplicit).toNat
      = (e + 1075).toNat := by
    show (e + 1023 + 52).toNat = _
    omega
  rw [pack.eq_def]
  simp only [biased, normal_iff]
  show (if 2048 ≤ (e + 1075).toNat + 1 then _ else _ : BitVec 64).toNat = _
  split
  · next large =>
    show (packComponents Format.binary64 .positive (-1#11) 0).toNat = _
    rw [toNat_packComponents, Nat.min_eq_right]
    · rfl
    · have := h.normal
      unfold infinityCode
      omega
  · next fits =>
    split
    · next normal =>
      rw [toNat_packComponents, BitVec.toNat_ofNat, BitVec.toNat_ofNat, Nat.min_eq_left]
      · omega
      · unfold infinityCode
        omega
    · next subnormal =>
      have := h.normal
      show (packComponents Format.binary64 .positive 0#11 (BitVec.ofNat 52 m)).toNat = _
      rw [toNat_packComponents, BitVec.toNat_ofNat, BitVec.toNat_ofNat, Nat.min_eq_left]
      · omega
      · unfold infinityCode
        omega

/-! ## Rounding a number -/

theorem shiftToTargetExponent_eq (m : ℕ) (e : ℤ) :
    shiftToTargetExponent Format.binary64 m e .exact =
      (ExtendedMantissa.shiftRightOne^[(target m e - e).toNat] (.ofMantissaAndAccuracy m .exact),
        e + (target m e - e).toNat) := by
  have shift (em : ExtendedMantissa) (k : ℕ) :
      em >>> k = ExtendedMantissa.shiftRightOne^[k] em := by
    show k.repeat ExtendedMantissa.shiftRightOne em = _
    induction k with
    | zero => rfl
    | succ k ih =>
      rw [Function.iterate_succ_apply', ← ih]
      rfl
  rw [← shift, ← targetExponent_eq]
  rfl

section Round

variable {m : ℕ} {e : ℤ}

/-- A number is shifted twice, since rounding may carry its mantissa over. -/
theorem roundWithAccuracy_eq (he : e ≤ target m e) :
    roundWithAccuracy Format.binary64 .positive m e .exact =
      let last := shiftToTargetExponent Format.binary64 (nearest m (target m e - e).toNat)
        (target m e) .exact
      if h : last.1.mantissa = 0 then .zero .positive
      else .finite .positive last.1.mantissa last.2 (Nat.pos_of_ne_zero h) := by
  have exponent : e + (target m e - e).toNat = target m e := by omega
  rw [roundWithAccuracy, shiftToTargetExponent_eq m e, exponent]
  rfl

theorem toNat_pack_round (hm : 0 < m) (he : e ≤ target m e) :
    (pack Format.binary64 (roundWithAccuracy Format.binary64 .positive m e .exact)).toNat =
      min (encode m e) infinityCode := by
  have upper := nearest_target_le he
  have lower := le_nearest_target hm he
  have le_target : -1074 ≤ target m e := le_max_right _ _
  rw [roundWithAccuracy_eq he, encode]
  generalize target m e = t at *
  generalize nearest m (t - e).toNat = r at *
  rw [shiftToTargetExponent_eq]
  rcases upper.lt_or_eq with small | rfl
  · -- The rounded mantissa has the right size.
    have fits : (target r t - t).toNat = 0 := by
      have : r.log2 ≤ 52 := by
        rcases Nat.eq_zero_or_pos r with rfl | hr
        · decide
        · have := (Nat.log2_lt hr.ne').mpr small
          omega
      unfold target
      omega
    rw [fits]
    show (pack Format.binary64 (if h : r = 0 then .zero .positive
      else .finite .positive r (t + (0 : ℕ)) (Nat.pos_of_ne_zero h))).toNat = _
    by_cases h : r = 0
    · subst h
      obtain rfl : t = -1074 := by
        by_contra ht
        exact absurd (lower ht) (by decide)
      decide
    · have exponent : t + (0 : ℕ) = t := by omega
      rw [dif_neg h, exponent]
      exact toNat_pack _ ⟨small, le_target, by tauto⟩
  · -- Rounding has carried the mantissa over to the next exponent.
    have carried : (target (2 ^ 53) t - t).toNat = 1 := by
      rw [target, Nat.log2_two_pow]
      omega
    rw [carried]
    show (pack Format.binary64 (.finite .positive (2 ^ 52) (t + (1 : ℕ)) (by decide))).toNat = _
    have same : (t + (1 : ℕ) + 1074).toNat * 2 ^ 52 + 2 ^ 52 = (t + 1074).toNat * 2 ^ 52 + 2 ^ 53 := by
      omega
    rw [toNat_pack _ ⟨by decide, by omega, .inl (Nat.le_refl _)⟩, same]

end Round

end HoleBlame.Rounding
