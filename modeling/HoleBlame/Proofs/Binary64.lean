import HoleBlame.Proofs.Growth
import HoleBlame.Proofs.Rounding

/-!
# Binary64 arithmetic keeps the order

The bits of a binary64 number that is not negative, read as a natural number, are its `code`.  Such
numbers compare as their codes do (`Rounding.compare_eq`), and the code of a sum or of a product with a
positive number is that of the exact result, rounded (`Rounding.code?_add`, `Rounding.code?_mul`).  As
rounding keeps the order, so do sums and products, which is most of what the instance of
`Scalar.Monotone` says.
-/

namespace HoleBlame

namespace Rounding

open Float.Model (Format UnpackedFloat)
open Float.Model.UnpackedFloat

/-! ## Reading a number -/

/-- The bits of a number that is not negative; both zeros count as the positive one. -/
def code? : UnpackedFloat → Option ℕ
  | .zero _ => some 0
  | .finite .positive m e _ => some ((e + 1074).toNat * 2 ^ 52 + m)
  | .infinity .positive => some infinityCode
  | _ => none

/-- Mantissa and exponent are as they are read from bits. -/
def Read : UnpackedFloat → Prop
  | .finite _ m e _ => Canonical m e ∧ e ≤ 971
  | _ => True

section Unpack

variable (b : BitVec 64)

theorem toNat_unpackMantissa :
    (@unpackMantissa Format.binary64 b).toNat = b.toNat % 2 ^ 52 := by
  show (BitVec.extractLsb 51 0 b).toNat = _
  rw [BitVec.extractLsb_toNat, Nat.shiftRight_zero]

theorem toNat_unpackExponent :
    (@unpackExponent Format.binary64 b).toNat = b.toNat / 2 ^ 52 % 2 ^ 11 := by
  show (BitVec.extractLsb 62 52 b).toNat = _
  rw [BitVec.extractLsb_toNat, Nat.shiftRight_eq_div_pow]

theorem toNat_unpackSign :
    (@unpackSign Format.binary64 b).toNat = b.toNat / 2 ^ 63 % 2 := by
  show (BitVec.extractLsb 63 63 b).toNat = _
  rw [BitVec.extractLsb_toNat, Nat.shiftRight_eq_div_pow]

/-- What is read from a sign, an exponent and a mantissa. -/
inductive OfFields (s : Sign) (E M : ℕ) : UnpackedFloat → Prop
  | infinity (hE : E = 2047) (hM : M = 0) : OfFields s E M (.infinity s)
  | undefined (hE : E = 2047) (hM : M ≠ 0) : OfFields s E M .notANumber
  | zero (hE : E = 0) (hM : M = 0) : OfFields s E M (.zero s)
  | subnormal (hE : E = 0) (hM : 0 < M) : OfFields s E M (.finite s M (-1074) hM)
  | normal (hE : E ≠ 2047) (hE' : E ≠ 0) (hM : 0 < 2 ^ 52 + M) :
      OfFields s E M (.finite s (2 ^ 52 + M) (E - 1075) hM)

theorem ofFields_unpack : OfFields (Sign.ofBitVec (@unpackSign Format.binary64 b))
    (b.toNat / 2 ^ 52 % 2 ^ 11) (b.toNat % 2 ^ 52) (unpack Format.binary64 b) := by
  have mantissa := toNat_unpackMantissa b
  have exponent := toNat_unpackExponent b
  have all_iff : @unpackExponent Format.binary64 b = -1#11 ↔
      b.toNat / 2 ^ 52 % 2 ^ 11 = 2047 := by
    rw [← BitVec.toNat_inj, exponent]
    rfl
  have zero_iff : @unpackExponent Format.binary64 b = 0#11 ↔
      b.toNat / 2 ^ 52 % 2 ^ 11 = 0 := by
    rw [← BitVec.toNat_inj, exponent]
    rfl
  have none_iff : @unpackMantissa Format.binary64 b = 0#52 ↔ b.toNat % 2 ^ 52 = 0 := by
    rw [← BitVec.toNat_inj, mantissa]
    rfl
  have value : (1#1 ++ @unpackMantissa Format.binary64 b).toNat = 2 ^ 52 + b.toNat % 2 ^ 52 := by
    rw [BitVec.toNat_append, ← Nat.shiftLeft_add_eq_or_of_lt (BitVec.isLt _), mantissa]
    rfl
  show OfFields _ _ _ (if @unpackExponent Format.binary64 b = -1#11 then
      if @unpackMantissa Format.binary64 b = 0#52 then .infinity _ else .notANumber
    else if @unpackExponent Format.binary64 b = 0#11 then
      if h : @unpackMantissa Format.binary64 b = 0#52 then .zero _ else .finite _ _ _ _
    else .finite _ _ _ _)
  by_cases hE : b.toNat / 2 ^ 52 % 2 ^ 11 = 2047
  · rw [if_pos (all_iff.mpr hE)]
    by_cases hM : b.toNat % 2 ^ 52 = 0
    · rw [if_pos (none_iff.mpr hM)]
      exact .infinity hE hM
    · rw [if_neg (none_iff.not.mpr hM)]
      exact .undefined hE hM
  · rw [if_neg (all_iff.not.mpr hE)]
    by_cases hE' : b.toNat / 2 ^ 52 % 2 ^ 11 = 0
    · rw [if_pos (zero_iff.mpr hE')]
      by_cases hM : b.toNat % 2 ^ 52 = 0
      · rw [dif_pos (none_iff.mpr hM)]
        exact .zero hE' hM
      · rw [dif_neg (none_iff.not.mpr hM)]
        convert OfFields.subnormal hE' (Nat.pos_of_ne_zero hM) using 2
        rw [exponent, hE']
        rfl
    · rw [if_neg (zero_iff.not.mpr hE')]
      convert OfFields.normal hE hE' (by omega) using 2
      rw [exponent]
      rfl

theorem read_unpack : Read (unpack Format.binary64 b) := by
  have fields := ofFields_unpack b
  generalize unpack Format.binary64 b = u at fields ⊢
  cases fields with
  | infinity => trivial
  | undefined => trivial
  | zero => trivial
  | subnormal => exact ⟨⟨by omega, by omega, .inr rfl⟩, by omega⟩
  | normal => exact ⟨⟨by omega, by omega, .inl (by omega)⟩, by omega⟩

variable {b}

/-- **Bits that are at most those of the infinite number are read as a number with these bits.** -/
theorem code?_unpack (h : b.toNat ≤ infinityCode) :
    code? (unpack Format.binary64 b) = some b.toNat := by
  have lt : b.toNat < 2 ^ 63 := by
    unfold infinityCode at h
    omega
  have positive : Sign.ofBitVec (@unpackSign Format.binary64 b) = .positive := by
    have sign : @unpackSign Format.binary64 b = 0#1 := by
      rw [← BitVec.toNat_inj, toNat_unpackSign]
      show _ = 0
      omega
    rw [sign]
    rfl
  have fields := ofFields_unpack b
  rw [positive] at fields
  unfold infinityCode at h
  generalize unpack Format.binary64 b = u at fields ⊢
  cases fields with
  | infinity hE hM => exact congrArg some (show 2047 * 2 ^ 52 = b.toNat by omega)
  | undefined hE hM => omega
  | zero hE hM => exact congrArg some (show 0 = b.toNat by omega)
  | subnormal hE hM =>
    exact congrArg some (show 0 * 2 ^ 52 + b.toNat % 2 ^ 52 = b.toNat by omega)
  | normal hE hE' hM =>
    exact congrArg some (show _ * 2 ^ 52 + (2 ^ 52 + b.toNat % 2 ^ 52) = b.toNat by omega)

end Unpack

/-! ## Comparing numbers -/

section Compare

variable {u v : UnpackedFloat} {b c : ℕ}

theorem code_finite {m : ℕ} {e : ℤ} (hm : 0 < m) (h : Canonical m e) (he : e ≤ 971) :
    0 < (e + 1074).toNat * 2 ^ 52 + m ∧ (e + 1074).toNat * 2 ^ 52 + m < infinityCode := by
  have := h.lt
  unfold infinityCode
  omega

theorem compare_codes {m m' : ℕ} {e e' : ℤ} (h : Canonical m e) (h' : Canonical m' e') :
    (compare e e').then (compare m m') =
      compare ((e + 1074).toNat * 2 ^ 52 + m) ((e' + 1074).toNat * 2 ^ 52 + m') := by
  obtain ⟨lt, le, normal⟩ := h
  obtain ⟨lt', le', normal'⟩ := h'
  rcases lt_trichotomy e e' with hlt | rfl | hgt
  · rw [compare_lt_iff_lt.mpr hlt]
    exact (Nat.compare_eq_lt.mpr (by omega)).symm
  · rw [compare_eq_iff_eq.mpr rfl]
    rcases lt_trichotomy m m' with hlt | rfl | hgt
    · rw [Nat.compare_eq_lt.mpr hlt]
      exact (Nat.compare_eq_lt.mpr (by omega)).symm
    · rw [Nat.compare_eq_eq.mpr rfl]
      exact (Nat.compare_eq_eq.mpr rfl).symm
    · rw [Nat.compare_eq_gt.mpr hgt]
      exact (Nat.compare_eq_gt.mpr (by omega)).symm
  · rw [compare_gt_iff_gt.mpr hgt]
    exact (Nat.compare_eq_gt.mpr (by omega)).symm

/-- **Numbers that are not negative compare as their bits do.** -/
theorem compare_eq (hu : Read u) (hv : Read v) (hb : code? u = some b) (hc : code? v = some c) :
    u.compare v = some (compare b c) := by
  rcases u with (_ | _) | _ | _ | ⟨_ | _, m, e, hm⟩ <;> cases hb <;>
    rcases v with (_ | _) | _ | _ | ⟨_ | _, m', e', hm'⟩ <;> cases hc
  case infinity.positive.refl.infinity.positive.refl =>
    rw [Nat.compare_eq_eq.mpr rfl]
    rfl
  case infinity.positive.refl.zero.refl =>
    rw [Nat.compare_eq_gt.mpr infinityCode_pos]
    rfl
  case infinity.positive.refl.finite.positive.refl =>
    rw [Nat.compare_eq_gt.mpr (code_finite hm' hv.1 hv.2).2]
    rfl
  case zero.refl.infinity.positive.refl =>
    rw [Nat.compare_eq_lt.mpr infinityCode_pos]
    rfl
  case zero.refl.zero.refl => rfl
  case zero.refl.finite.positive.refl =>
    rw [Nat.compare_eq_lt.mpr (code_finite hm' hv.1 hv.2).1]
    rfl
  case finite.positive.refl.infinity.positive.refl =>
    rw [Nat.compare_eq_lt.mpr (code_finite hm hu.1 hu.2).2]
    rfl
  case finite.positive.refl.zero.refl =>
    rw [Nat.compare_eq_gt.mpr (code_finite hm hu.1 hu.2).1]
    rfl
  case finite.positive.refl.finite.positive.refl =>
    rw [← compare_codes hu.1 hv.1]
    rfl

theorem code?_le (hu : Read u) (hb : code? u = some b) : b ≤ infinityCode := by
  rcases u with (_ | _) | _ | _ | ⟨_ | _, m, e, hm⟩ <;> cases hb
  · exact Nat.le_refl _
  · exact Nat.zero_le _
  · exact (code_finite hm hu.1 hu.2).2.le

end Compare

/-! ## Sums -/

/-- A finite number as a multiple of the smallest positive one. -/
def units : UnpackedFloat → ℕ
  | .finite _ m e _ => m * 2 ^ (e + 1074).toNat
  | _ => 0

section Sum

variable {u v : UnpackedFloat} {b c : ℕ}

theorem target_of_canonical {m : ℕ} {e : ℤ} (hm : 0 < m) (h : Canonical m e) : target m e = e := by
  obtain ⟨lt, le, normal⟩ := h
  have small : m.log2 < 53 := (Nat.log2_lt hm.ne').mpr lt
  have large : 2 ^ 52 ≤ m → 52 ≤ m.log2 := (Nat.le_log2 hm.ne').mpr
  unfold target
  omega

theorem encode_units {m : ℕ} {e : ℤ} (hm : 0 < m) (h : Canonical m e) :
    encode (m * 2 ^ (e + 1074).toNat) (-1074) = (e + 1074).toNat * 2 ^ 52 + m := by
  have exact := target_of_canonical hm h
  have smallest : -1074 = e - (e + 1074).toNat := by
    have := h.le
    omega
  rw [smallest, encode_mul_two_pow hm exact.ge, encode, exact, sub_self]
  rfl

theorem units_pos (hb : code? u = some b) (pos : 0 < b) (finite : b < infinityCode) : 0 < units u := by
  rcases u with (_ | _) | _ | _ | ⟨_ | _, m, e, hm⟩ <;> cases hb
  · exact absurd finite (Nat.lt_irrefl _)
  · exact absurd pos (Nat.lt_irrefl _)
  · exact Nat.mul_pos hm (Nat.two_pow_pos _)

theorem units_le_units (hu : Read u) (hv : Read v) (hb : code? u = some b) (hc : code? v = some c)
    (h : b ≤ c) (finite : c < infinityCode) : units u ≤ units v := by
  rcases u with (_ | _) | _ | _ | ⟨_ | _, m, e, hm⟩ <;> cases hb <;>
    rcases v with (_ | _) | _ | _ | ⟨_ | _, m', e', hm'⟩ <;> cases hc
  case infinity.positive.refl.zero.refl | infinity.positive.refl.finite.positive.refl =>
    exact absurd h finite.not_ge
  case infinity.positive.refl.infinity.positive.refl | zero.refl.infinity.positive.refl |
      finite.positive.refl.infinity.positive.refl =>
    exact absurd finite (Nat.lt_irrefl _)
  case zero.refl.zero.refl | zero.refl.finite.positive.refl => exact Nat.zero_le _
  case finite.positive.refl.zero.refl => omega
  case finite.positive.refl.finite.positive.refl =>
    obtain ⟨⟨lt, le, normal⟩, -⟩ := hu
    obtain ⟨⟨lt', le', normal'⟩, -⟩ := hv
    rcases lt_trichotomy e e' with hlt | rfl | hgt
    · have step : (e + 1074).toNat + 1 ≤ (e' + 1074).toNat := by omega
      calc m * 2 ^ (e + 1074).toNat ≤ 2 ^ 53 * 2 ^ (e + 1074).toNat :=
            Nat.mul_le_mul_right _ lt.le
        _ = 2 ^ 52 * 2 ^ ((e + 1074).toNat + 1) := by rw [← pow_add, ← pow_add]; congr 1; omega
        _ ≤ m' * 2 ^ (e' + 1074).toNat :=
            Nat.mul_le_mul (by omega) (Nat.pow_le_pow_right two_pos step)
    · exact Nat.mul_le_mul_right _ (by omega)
    · omega

/-- What is read from the bits of a rounded number. -/
theorem code?_unpack_pack {k : ℕ} (h : (pack Format.binary64 u).toNat = min k infinityCode) :
    code? (unpack Format.binary64 (pack Format.binary64 u)) = some (min k infinityCode) := by
  rw [code?_unpack (h ▸ Nat.min_le_right _ _), h]

/-- Numbers keep their bits. -/
theorem code?_unpack_pack_of_read (hu : Read u) (hb : code? u = some b) :
    code? (unpack Format.binary64 (pack Format.binary64 u)) = some b := by
  rcases u with (_ | _) | _ | s | ⟨_ | _, m, e, hm⟩ <;> cases hb
  case infinity.positive.refl => rfl
  case zero.refl => cases s <;> rfl
  case finite.positive.refl =>
    have e := code?_unpack_pack (toNat_pack hm hu.1)
    rwa [Nat.min_eq_left (code_finite hm hu.1 hu.2).2.le] at e

/-- The bits of a sum of numbers that are not negative, given the sum of their units. -/
def sumCode (b c total : ℕ) : ℕ :=
  if b = infinityCode ∨ c = infinityCode then infinityCode
  else min (encode total (-1074)) infinityCode

theorem toNat_pack_round_positive {m : ℕ} {e : ℤ} (hm : 0 < m) (he : -1074 ≤ e) :
    (pack Format.binary64 (UnpackedFloat.round Format.binary64 .positive m e)).toNat =
      min (encode (m * 2 ^ (e + 1074).toNat) (-1074)) infinityCode := by
  have le_target : -1074 ≤ target m e := le_max_right _ _
  -- If the exponent is larger than it has to be, the mantissa is shifted to the left first.
  have shifted := target_mul_two_pow hm e (e - target m e).toNat
  have hm' : 0 < m * 2 ^ (e - target m e).toNat := Nat.mul_pos hm (Nat.two_pow_pos _)
  have he' : e - (e - target m e).toNat ≤ target (m * 2 ^ (e - target m e).toNat)
      (e - (e - target m e).toNat) := by omega
  have rounded := toNat_pack_round hm' he'
  rw [← encode_mul_two_pow hm' he' (e - (e - target m e).toNat + 1074).toNat, mul_assoc, ← pow_add]
    at rounded
  rw [UnpackedFloat.round, targetExponent_eq, decreaseExponent]
  simp only [Nat.shiftLeft_eq]
  rw [rounded]
  congr 3
  · congr 1
    omega
  · omega

theorem encode_zero : encode 0 (-1074) = 0 := by decide

/-- **The bits of a sum are those of the rounded sum of the units.** -/
theorem code?_add (hu : Read u) (hv : Read v) (hb : code? u = some b) (hc : code? v = some c) :
    code? (unpack Format.binary64 (pack Format.binary64 (UnpackedFloat.add Format.binary64 u v))) =
      some (sumCode b c (units u + units v)) := by
  rcases u with (_ | _) | _ | s | ⟨_ | _, m, e, hm⟩ <;> cases hb <;>
    rcases v with (_ | _) | _ | s' | ⟨_ | _, m', e', hm'⟩ <;> cases hc
  case infinity.positive.refl.infinity.positive.refl | infinity.positive.refl.zero.refl |
      infinity.positive.refl.finite.positive.refl =>
    rw [sumCode, if_pos (.inl rfl)]
    exact code?_unpack_pack_of_read (u := .infinity .positive) trivial rfl
  case zero.refl.infinity.positive.refl | finite.positive.refl.infinity.positive.refl =>
    rw [sumCode, if_pos (.inr rfl)]
    exact code?_unpack_pack_of_read (u := .infinity .positive) trivial rfl
  case zero.refl.zero.refl =>
    rw [sumCode, if_neg (by decide)]
    show _ = some (min (encode 0 (-1074)) infinityCode)
    rw [encode_zero]
    cases s <;> cases s' <;> rfl
  case zero.refl.finite.positive.refl =>
    have finite := (code_finite hm' hv.1 hv.2).2
    rw [sumCode, if_neg (by rintro (h | h); exacts [absurd h (by decide), absurd h finite.ne])]
    show _ = some (min (encode (0 + m' * 2 ^ (e' + 1074).toNat) (-1074)) infinityCode)
    rw [zero_add, encode_units hm' hv.1]
    exact code?_unpack_pack (toNat_pack hm' hv.1)
  case finite.positive.refl.zero.refl =>
    have finite := (code_finite hm hu.1 hu.2).2
    rw [sumCode, if_neg (by rintro (h | h); exacts [absurd h finite.ne, absurd h (by decide)])]
    show _ = some (min (encode (m * 2 ^ (e + 1074).toNat + 0) (-1074)) infinityCode)
    rw [add_zero, encode_units hm hu.1]
    exact code?_unpack_pack (toNat_pack hm hu.1)
  case finite.positive.refl.finite.positive.refl =>
    have finite := (code_finite hm hu.1 hu.2).2
    have finite' := (code_finite hm' hv.1 hv.2).2
    rw [sumCode, if_neg (by rintro (h | h); exacts [absurd h finite.ne, absurd h finite'.ne])]
    have le := hu.1.le
    have le' := hv.1.le
    -- Both mantissas are shifted to the smaller exponent and added.
    have total_pos : 0 < m * 2 ^ (e - min e e').toNat + m' * 2 ^ (e' - min e e').toNat :=
      Nat.add_pos_left (Nat.mul_pos hm (Nat.two_pow_pos _)) _
    have added : UnpackedFloat.add Format.binary64 (.finite .positive m e hm)
        (.finite .positive m' e' hm') = UnpackedFloat.round Format.binary64 .positive
          (m * 2 ^ (e - min e e').toNat + m' * 2 ^ (e' - min e e').toNat) (min e e') := by
      show UnpackedFloat.normalize Format.binary64 (((m <<< (e - min e e').toNat : ℕ) : ℤ) +
        ((m' <<< (e' - min e e').toNat : ℕ) : ℤ)) (min e e') .positive = _
      rw [Nat.shiftLeft_eq, Nat.shiftLeft_eq, ← Nat.cast_add, UnpackedFloat.normalize,
        show compare _ (0 : ℤ) = .gt from compare_gt_iff_gt.mpr (Int.natCast_pos.mpr total_pos)]
      rfl
    have rescaled : (m * 2 ^ (e - min e e').toNat + m' * 2 ^ (e' - min e e').toNat) *
        2 ^ (min e e' + 1074).toNat = m * 2 ^ (e + 1074).toNat + m' * 2 ^ (e' + 1074).toNat := by
      rw [add_mul, mul_assoc, mul_assoc, ← pow_add, ← pow_add]
      congr 3 <;> omega
    rw [added]
    refine code?_unpack_pack ((toNat_pack_round_positive total_pos (by omega)).trans ?_)
    rw [rescaled]
    rfl

/-- Larger sums have larger bits. -/
theorem sumCode_le_sumCode {b' c' total total' : ℕ} (hb : b ≤ b') (hc : c ≤ c')
    (hb' : b' ≤ infinityCode) (hc' : c' ≤ infinityCode)
    (h : b' < infinityCode → c' < infinityCode → total ≤ total') :
    sumCode b c total ≤ sumCode b' c' total' := by
  unfold sumCode
  split_ifs with infinite infinite' infinite'
  · exact Nat.le_refl _
  · omega
  · exact Nat.min_le_right _ _
  · have le := h (by omega) (by omega)
    refine min_le_min_right _ ?_
    rcases Nat.eq_zero_or_pos total with rfl | pos
    · rw [encode_zero]
      exact Nat.zero_le _
    · exact encode_le_encode pos le (le_max_right _ _)

end Sum

/-! ## Products -/

section Product

variable {v : UnpackedFloat} {c m : ℕ} {e : ℤ}

/-- The bits of the product of a positive number and a number that is not negative. -/
def productCode (c product : ℕ) (e : ℤ) : ℕ :=
  if c = 0 then 0 else if c = infinityCode then infinityCode else min (encode product e) infinityCode

theorem productCode_zero (product : ℕ) (e : ℤ) : productCode 0 product e = 0 :=
  if_pos rfl

theorem productCode_infinity (product : ℕ) (e : ℤ) :
    productCode infinityCode product e = infinityCode := by
  rw [productCode, if_neg infinityCode_pos.ne', if_pos rfl]

/-- A product is not shifted to the left. -/
theorem le_target_mul {m' : ℕ} {e' : ℤ} (hm : 0 < m) (hm' : 0 < m')
    (h : 2 ^ 52 ≤ m ∨ e = -1074) (h' : 2 ^ 52 ≤ m' ∨ e' = -1074) :
    e + e' ≤ target (m * m') (e + e') := by
  have normal {k : ℕ} (hk : 2 ^ 52 ≤ k) (le : k ≤ m * m') : 52 ≤ (m * m').log2 :=
    (Nat.le_log2 (Nat.mul_pos hm hm').ne').mpr (hk.trans le)
  unfold target
  rcases h with large | rfl
  · have := normal large (Nat.le_mul_of_pos_right m hm')
    omega
  · rcases h' with large | rfl
    · have := normal large (Nat.le_mul_of_pos_left m' hm)
      omega
    · omega

/-- **The bits of a product are those of the rounded product.** -/
theorem code?_mul (hm : 0 < m) (h : Canonical m e) (hv : Read v) (hc : code? v = some c) :
    code? (unpack Format.binary64 (pack Format.binary64
        (UnpackedFloat.mul Format.binary64 (.finite .positive m e hm) v))) =
      some (productCode c (m * units v) (e - 1074)) := by
  rcases v with (_ | _) | _ | s | ⟨_ | _, m', e', hm'⟩ <;> cases hc
  case infinity.positive.refl =>
    rw [show UnpackedFloat.mul Format.binary64 (.finite .positive m e hm) (.infinity .positive) =
      .infinity .positive from rfl, productCode_infinity]
    exact code?_unpack_pack_of_read trivial rfl
  case zero.refl =>
    rw [show UnpackedFloat.mul Format.binary64 (.finite .positive m e hm) (.zero s) =
      .zero (.positive * s) from rfl, productCode_zero]
    exact code?_unpack_pack_of_read trivial rfl
  case finite.positive.refl =>
    have finite := code_finite hm' hv.1 hv.2
    have le := le_target_mul hm hm' h.normal hv.1.normal
    have scaled := encode_mul_two_pow (Nat.mul_pos hm hm') le (e' + 1074).toNat
    have smallest : e + e' - (e' + 1074).toNat = e - 1074 := by
      have := hv.1.le
      omega
    rw [mul_assoc, smallest] at scaled
    rw [productCode, if_neg finite.1.ne', if_neg finite.2.ne]
    refine code?_unpack_pack ((toNat_pack_round (Nat.mul_pos hm hm') le).trans ?_)
    rw [← scaled]
    rfl

/-- Larger products have larger bits. -/
theorem productCode_le_productCode {c' k k' : ℕ} (hm : 0 < m) (h : Canonical m e) (hc : c ≤ c')
    (hc' : c' ≤ infinityCode) (hk : 0 < c → c < infinityCode → 0 < k)
    (le : c' < infinityCode → k ≤ k') :
    productCode c (m * k) (e - 1074) ≤ productCode c' (m * k') (e - 1074) := by
  have pos := infinityCode_pos
  unfold productCode
  split_ifs with zero zero' infinite' infinite zero' infinite' zero' infinite'
  · exact Nat.le_refl _
  · exact Nat.zero_le _
  · exact Nat.zero_le _
  · omega
  · exact Nat.le_refl _
  · omega
  · omega
  · exact Nat.min_le_right _ _
  · have hk := hk (Nat.pos_of_ne_zero zero) (by omega)
    refine min_le_min_right _ ?_
    exact encode_le_encode (Nat.mul_pos hm hk) (Nat.mul_le_mul_left m (le (by omega)))
      (le_target_mul hm hk h.normal (.inr rfl))

end Product

/-! ## Results that are defined -/

section Defined

variable {u v : UnpackedFloat}

theorem unpack_packComponents_ne_notANumber (s : Sign) {e : BitVec 11} (m : BitVec 52)
    (he : e.toNat ≠ 2047) :
    unpack Format.binary64 (packComponents Format.binary64 s e m) ≠ .notANumber := by
  have fields := ofFields_unpack (packComponents Format.binary64 s e m)
  have exponent : (packComponents Format.binary64 s e m).toNat / 2 ^ 52 % 2 ^ 11 = e.toNat := by
    have := m.isLt
    have := e.isLt
    rw [toNat_packSigned]
    omega
  rw [exponent] at fields
  intro undefined
  rw [undefined] at fields
  cases fields with
  | undefined hE hM => exact he hE

theorem unpack_packedInfinity (s : Sign) :
    unpack Format.binary64 (packedInfinity Format.binary64 s) = .infinity s := by
  cases s <;> rfl

/-- What is defined stays so when it is stored. -/
theorem unpack_pack_ne_notANumber (hu : u ≠ .notANumber) :
    unpack Format.binary64 (pack Format.binary64 u) ≠ .notANumber := by
  cases u with
  | notANumber => exact absurd rfl hu
  | infinity s =>
    rw [show pack Format.binary64 (.infinity s) = packedInfinity Format.binary64 s from rfl,
      unpack_packedInfinity]
    rintro ⟨⟩
  | zero s => exact unpack_packComponents_ne_notANumber s _ (by decide)
  | finite s m e hm =>
    rw [pack.eq_def]
    dsimp only
    split
    · rw [unpack_packedInfinity]
      rintro ⟨⟩
    · next fits =>
      split
      · refine unpack_packComponents_ne_notANumber s _ ?_
        have size : 2 ^ Format.binary64.exponentBits = 2048 := rfl
        rw [BitVec.toNat_ofNat]
        omega
      · exact unpack_packComponents_ne_notANumber s _ (by decide)

theorem round_ne_notANumber (s : Sign) (m : ℕ) (e : ℤ) :
    UnpackedFloat.round Format.binary64 s m e ≠ .notANumber := by
  intro undefined
  unfold UnpackedFloat.round roundWithAccuracy at undefined
  dsimp only at undefined
  rcases dite_eq_iff.mp undefined with ⟨_, vanished⟩ | ⟨_, kept⟩
  · cases vanished
  · cases kept

theorem normalize_ne_notANumber (m e : ℤ) (s : Sign) :
    UnpackedFloat.normalize Format.binary64 m e s ≠ .notANumber := by
  unfold UnpackedFloat.normalize
  split
  · exact round_ne_notANumber _ _ _
  · rintro ⟨⟩
  · exact round_ne_notANumber _ _ _

/-- Taking a finite number away is defined. -/
theorem sub_ne_notANumber (hu : u ≠ .notANumber) (hv : v.isFinite = true) :
    UnpackedFloat.sub Format.binary64 u v ≠ .notANumber := by
  rcases v with _ | _ | t | ⟨t, m', e', hm'⟩
  case infinity | notANumber => cases hv
  all_goals
    rcases u with _ | _ | s | ⟨s, m, e, hm⟩
    case notANumber => exact absurd rfl hu
  case zero.zero => cases s <;> cases t <;> rintro ⟨⟩
  case finite.finite => exact normalize_ne_notANumber _ _ _
  all_goals rintro ⟨⟩

theorem abs_ne_notANumber (hu : u ≠ .notANumber) : UnpackedFloat.abs u ≠ .notANumber := by
  cases u with
  | notANumber => exact absurd rfl hu
  | infinity | zero | finite => rintro ⟨⟩

end Defined

/-! ## Binary64 numbers -/

section Float

variable {x y : Float} {b c : ℕ}

/-- The bits of a number that is not negative. -/
def code (x : Float) : Option ℕ :=
  code? x.toModel.unpack

theorem read_toModel (x : Float) : Read x.toModel.unpack :=
  read_unpack _

theorem le_infinityCode (hb : code x = some b) : b ≤ infinityCode :=
  code?_le (read_toModel x) hb

theorem le_iff_of_code (hb : code x = some b) (hc : code y = some c) : x ≤ y ↔ b ≤ c := by
  rw [Rank.le_iff_compare, compare_eq (read_toModel x) (read_toModel y) hb hc, Option.some.injEq,
    Option.some.injEq, Nat.compare_eq_lt, Nat.compare_eq_eq]
  exact Nat.le_iff_lt_or_eq.symm

theorem lt_iff_of_code (hb : code x = some b) (hc : code y = some c) : x < y ↔ b < c := by
  rw [Rank.lt_iff_compare, compare_eq (read_toModel x) (read_toModel y) hb hc, Option.some.injEq,
    Nat.compare_eq_lt]

theorem code_zero : code 0 = some 0 := by decide +kernel

theorem code_infinity : code Scalar.infinity = some infinityCode := by decide +kernel

theorem nonneg_of_code (hb : code x = some b) : 0 ≤ x :=
  (le_iff_of_code code_zero hb).mpr (Nat.zero_le b)

theorem le_iff_rank : x ≤ y ↔ ∃ a b, Rank.rank x.toModel.unpack = some a ∧
    Rank.rank y.toModel.unpack = some b ∧ a ≤ b := by
  rw [Rank.le_iff_compare, Rank.compare_eq_some, Rank.compare_eq_some]
  constructor
  · rintro (⟨a, b, ha, hb, hab⟩ | ⟨a, b, ha, hb, hab⟩)
    · exact ⟨a, b, ha, hb, le_of_lt hab⟩
    · exact ⟨a, b, ha, hb, le_of_eq hab⟩
  · rintro ⟨a, b, ha, hb, hab⟩
    rcases hab.lt_or_eq with hlt | heq
    · exact .inl ⟨a, b, ha, hb, hlt⟩
    · exact .inr ⟨a, b, ha, hb, heq⟩

theorem le_trans {x y z : Float} (h : x ≤ y) (h' : y ≤ z) : x ≤ z := by
  obtain ⟨a, b, ha, hb, hab⟩ := le_iff_rank.mp h
  obtain ⟨b', c, hb', hc, hbc⟩ := le_iff_rank.mp h'
  obtain rfl : b = b' := Option.some.inj (hb.symm.trans hb')
  exact le_iff_rank.mpr ⟨a, c, ha, hc, hab.trans hbc⟩

section Ranks

variable {a b : Rank.Ranks} (ha : Rank.rank x.toModel.unpack = some a)
  (hb : Rank.rank y.toModel.unpack = some b)
include ha hb

theorem lt_iff_of_rank : x < y ↔ a < b := by
  obtain ⟨o, compared, ho⟩ := Rank.exists_compares ha hb
  rw [Rank.lt_iff_compare, compared, Option.some.injEq, ho.eq_lt]

theorem le_iff_of_rank : x ≤ y ↔ a ≤ b := by
  obtain ⟨o, compared, ho⟩ := Rank.exists_compares ha hb
  rw [Rank.le_iff_compare, compared, Option.some.injEq, Option.some.injEq, ho.eq_lt, ho.eq_eq,
    le_iff_lt_or_eq]

end Ranks

/-- **Numbers that are defined are linearly ordered.** -/
theorem not_lt_iff (hx : x.toModel.unpack ≠ .notANumber) (hy : y.toModel.unpack ≠ .notANumber) :
    ¬ x < y ↔ y ≤ x := by
  obtain ⟨a, ha⟩ := Rank.exists_rank hx
  obtain ⟨b, hb⟩ := Rank.exists_rank hy
  rw [lt_iff_of_rank ha hb, le_iff_of_rank hb ha, not_lt]

theorem ne_notANumber_of_isFinite (h : x.isFinite = true) : x.toModel.unpack ≠ .notANumber := by
  intro undefined
  have : x.toModel.unpack.isFinite = true := h
  rw [undefined] at this
  cases this

theorem le_of_not_lt (hx : x.isFinite = true) (hy : y.isFinite = true) (h : ¬ y < x) : x ≤ y :=
  (not_lt_iff (ne_notANumber_of_isFinite hy) (ne_notANumber_of_isFinite hx)).mp h

theorem exists_code (h : 0 ≤ x) : ∃ b, code x = some b := by
  rw [Rank.le_iff_compare] at h
  unfold code
  have zero : (0 : Float).toModel.unpack = .zero .positive := by rfl
  rw [zero] at h
  generalize x.toModel.unpack = u at h ⊢
  rcases u with (_ | _) | _ | _ | ⟨_ | _, m, e, hm⟩
  case infinity.negative | notANumber | finite.negative => rcases h with h | h <;> cases h
  all_goals exact ⟨_, rfl⟩

theorem ne_notANumber_of_nonneg (h : 0 ≤ x) : x.toModel.unpack ≠ .notANumber := by
  obtain ⟨b, hb⟩ := exists_code h
  intro undefined
  rw [code, undefined] at hb
  cases hb

/-- The distance to a finite number is defined. -/
theorem abs_sub_ne_notANumber (hx : x.toModel.unpack ≠ .notANumber) (hy : y.isFinite = true) :
    (x - y).abs.toModel.unpack ≠ .notANumber :=
  unpack_pack_ne_notANumber (abs_ne_notANumber (unpack_pack_ne_notANumber (sub_ne_notANumber hx hy)))

theorem code_add (hb : code x = some b) (hc : code y = some c) : code (x + y) =
    some (sumCode b c (units x.toModel.unpack + units y.toModel.unpack)) :=
  code?_add (read_toModel x) (read_toModel y) hb hc

theorem exists_positive (h : 0 < x) (h' : x < Scalar.infinity) :
    ∃ m e hm, x.toModel.unpack = .finite .positive m e hm ∧ Canonical m e := by
  obtain ⟨b, hb⟩ := exists_code (Scalar.Ordered.le_iff.mpr (.inl h))
  have pos := (lt_iff_of_code code_zero hb).mp h
  have finite := (lt_iff_of_code hb code_infinity).mp h'
  have read := read_toModel x
  unfold code at hb
  rcases hx : x.toModel.unpack with (_ | _) | _ | _ | ⟨_ | _, m, e, hm⟩ <;> rw [hx] at hb <;> cases hb
  · exact absurd finite (Nat.lt_irrefl _)
  · exact absurd pos (Nat.lt_irrefl _)
  · rw [hx] at read
    exact ⟨m, e, hm, rfl, read.1⟩

theorem code_mul {m : ℕ} {e : ℤ} {hm : 0 < m} (hx : x.toModel.unpack = .finite .positive m e hm)
    (h : Canonical m e) (hc : code y = some c) :
    code (x * y) = some (productCode c (m * units y.toModel.unpack) (e - 1074)) := by
  have product := code?_mul hm h (read_toModel y) hc
  rw [← hx] at product
  exact product

/-- What is left of the infinite number when a finite one is taken away. -/
theorem code_abs_sub (h : 0 ≤ x) (finite : x < Scalar.infinity) (infinite : Scalar.infinity ≤ y) :
    code (Scalar.abs (y - x)) = some infinityCode := by
  obtain ⟨b, hb⟩ := exists_code h
  obtain ⟨c, hc⟩ := exists_code (le_trans (nonneg_of_code code_infinity) infinite)
  have hb' := (lt_iff_of_code hb code_infinity).mp finite
  have hc' := Nat.le_antisymm (le_infinityCode hc) ((le_iff_of_code code_infinity hc).mp infinite)
  have hy : y.toModel.unpack = .infinity .positive := by
    have read := read_toModel y
    unfold code at hc
    rcases hy : y.toModel.unpack with (_ | _) | _ | _ | ⟨_ | _, m, e, hm⟩ <;> rw [hy] at hc <;> cases hc
    case zero.refl => exact absurd hc' (by decide)
    case finite.positive.refl =>
      rw [hy] at read
      exact absurd hc' (code_finite hm read.1 read.2).2.ne
  have difference : UnpackedFloat.sub Format.binary64 (.infinity .positive) x.toModel.unpack =
      .infinity .positive := by
    unfold code at hb
    generalize x.toModel.unpack = u at hb ⊢
    rcases u with (_ | _) | _ | _ | ⟨_ | _, m, e, hm⟩ <;> cases hb
    · exact absurd hb' (Nat.lt_irrefl _)
    · rfl
    · rfl
  show code? (unpack Format.binary64 (pack Format.binary64 (UnpackedFloat.abs (unpack Format.binary64
    (pack Format.binary64 (UnpackedFloat.sub Format.binary64 y.toModel.unpack x.toModel.unpack)))))) = _
  rw [hy, difference]
  rfl

end Float

end Rounding

open Rounding in
/-- **Binary64 arithmetic keeps the order of numbers that are not negative.** -/
instance : Scalar.Monotone Float where
  zero_le_zero := nonneg_of_code code_zero
  le_refl h := by
    obtain ⟨b, hb⟩ := exists_code h
    exact (le_iff_of_code hb hb).mpr (Nat.le_refl b)
  le_trans := le_trans
  lt_or_le h h' := by
    obtain ⟨b, hb⟩ := exists_code h
    obtain ⟨c, hc⟩ := exists_code h'
    rw [lt_iff_of_code hb hc, le_iff_of_code hc hb]
    exact Nat.lt_or_ge b c
  le_infinity h := by
    obtain ⟨b, hb⟩ := exists_code h
    exact (le_iff_of_code hb code_infinity).mpr (le_infinityCode hb)
  one_lt_infinity := by decide +kernel
  zero_le_emptySum := by decide +kernel
  add_nonneg h h' := by
    obtain ⟨b, hb⟩ := exists_code h
    obtain ⟨c, hc⟩ := exists_code h'
    exact nonneg_of_code (code_add hb hc)
  add_le_add := by
    intro x x' y y' hx hxx' hy hyy'
    obtain ⟨b, hb⟩ := exists_code hx
    obtain ⟨c, hc⟩ := exists_code hy
    obtain ⟨b', hb'⟩ := exists_code (le_trans hx hxx')
    obtain ⟨c', hc'⟩ := exists_code (le_trans hy hyy')
    have hbb' := (le_iff_of_code hb hb').mp hxx'
    have hcc' := (le_iff_of_code hc hc').mp hyy'
    rw [le_iff_of_code (code_add hb hc) (code_add hb' hc')]
    refine sumCode_le_sumCode hbb' hcc' (le_infinityCode hb') (le_infinityCode hc') ?_
    intro finite finite'
    exact Nat.add_le_add (units_le_units (read_toModel x) (read_toModel x') hb hb' hbb' finite)
      (units_le_units (read_toModel y) (read_toModel y') hc hc' hcc' finite')
  mul_nonneg hp hp' h := by
    obtain ⟨m, e, hm, hx, canonical⟩ := exists_positive hp hp'
    obtain ⟨c, hc⟩ := exists_code h
    exact nonneg_of_code (code_mul hx canonical hc)
  mul_le_mul := by
    intro p x x' hp hp' hx hxx'
    obtain ⟨m, e, hm, hpx, canonical⟩ := exists_positive hp hp'
    obtain ⟨c, hc⟩ := exists_code hx
    obtain ⟨c', hc'⟩ := exists_code (le_trans hx hxx')
    have hcc' := (le_iff_of_code hc hc').mp hxx'
    rw [le_iff_of_code (code_mul hpx canonical hc) (code_mul hpx canonical hc')]
    exact productCode_le_productCode hm canonical hcc' (le_infinityCode hc')
      (units_pos hc)
      (units_le_units (read_toModel x) (read_toModel x') hc hc' hcc')
  infinity_le_infinity_add := by decide +kernel
  infinity_le_add_infinity := by decide +kernel
  infinity_le_mul_infinity := by
    intro p hp hp'
    obtain ⟨m, e, hm, hx, canonical⟩ := exists_positive hp hp'
    have product := code_mul hx canonical code_infinity
    rw [productCode_infinity] at product
    exact (le_iff_of_code code_infinity product).mpr (Nat.le_refl _)
  infinity_le_abs_sub h finite infinite := by
    exact (le_iff_of_code code_infinity (code_abs_sub h finite infinite)).mpr (Nat.le_refl _)
  idle := by decide +kernel

end HoleBlame
