import HoleBlame.Decimal.Reader
import HoleBlame.Proofs.Nearest
import HoleBlame.Proofs.Scanning

/-!
# Numbers in print read back

What is written of a number is read as that number.

* A natural number below `2 ^ 64` is read digit by digit, and nothing on the way is larger than the
  number itself (`Decimal.readNat_natDigits`).
* A number of binary64 is its sign and its magnitude (`Rounding.signed_magnitude`), which is what its
  bits are without the highest one.  The text of the magnitude has digits before and perhaps behind a
  point.  They spell the decimal that was selected for printing (`Decimal.spells_positional`), and as it
  reads back, so do they (`Binary.exists_literal`).  The words for infinite numbers are read as these
  (`Decimal.readFloat_numberText`).

Which characters occur in such a text (`Decimal.isNumeral`) is what a format has to know that puts
numbers between other things.
-/

namespace HoleBlame

namespace Rounding

open Float.Model (Format UnpackedFloat)
open Float.Model.UnpackedFloat

/-! ## The bits of a number -/

/-- **A number is packed into the fields it was read from.** -/
theorem toNat_pack_ofFields {s : Sign} {E M : ℕ} {u : UnpackedFloat} (h : OfFields s E M u)
    (hE : E < 2 ^ 11) (hM : M < 2 ^ 52) (hu : u ≠ .notANumber) :
    (pack Format.binary64 u).toNat = s.toBitVec.toNat * 2 ^ 63 + E * 2 ^ 52 + M := by
  cases h with
  | undefined => exact absurd rfl hu
  | infinity hE hM =>
    subst hE hM
    exact toNat_packSigned s _ _
  | zero hE hM =>
    subst hE hM
    exact toNat_packSigned s _ _
  | subnormal hE' pos =>
    subst hE'
    have subnormal : ¬ M.log2 + 1 = Format.binary64.mantissaBits := by
      have := (Nat.log2_lt pos.ne').mpr hM
      show ¬ M.log2 + 1 = 53
      omega
    rw [pack.eq_def]
    simp only [subnormal]
    show (packComponents Format.binary64 s 0#11 (BitVec.ofNat 52 M)).toNat = _
    rw [toNat_packSigned, BitVec.toNat_ofNat, BitVec.toNat_ofNat, Nat.mod_eq_of_lt hM]
  | normal hE' hE'' pos =>
    have normal : (2 ^ 52 + M).log2 + 1 = Format.binary64.mantissaBits := by
      show (2 ^ 52 + M).log2 + 1 = 53
      rw [Nat.add_left_inj, Nat.log2_eq_iff pos.ne']
      omega
    have biased : ((E : ℤ) - 1075 + Format.binary64.exponentBias +
        Format.binary64.mantissaBitsWithoutImplicit).toNat = E := by
      show ((E : ℤ) - 1075 + 1023 + 52).toNat = E
      omega
    rw [pack.eq_def]
    simp only [biased, normal]
    rw [if_neg (show ¬ 2 ^ Format.binary64.exponentBits ≤ E + 1 by show ¬ 2048 ≤ E + 1; omega),
      if_pos trivial, toNat_packSigned, BitVec.toNat_ofNat, BitVec.toNat_ofNat]
    show _ + E % 2 ^ 11 * 2 ^ 52 + (2 ^ 52 + M) % 2 ^ 52 = _
    omega

theorem ofFields_neg {s : Sign} {E M : ℕ} {u : UnpackedFloat} (h : OfFields s E M u) :
    OfFields (-s) E M u.neg := by
  cases h with
  | undefined hE hM => exact .undefined hE hM
  | infinity hE hM => exact .infinity hE hM
  | zero hE hM => exact .zero hE hM
  | subnormal hE pos => exact .subnormal hE pos
  | normal hE hE' pos => exact .normal hE hE' pos

/-! ## The bits of a binary64 number -/

section Float

variable {x : Float} {b : UInt64}

theorem eq_of_toBits {x y : Float} (h : x.toBits = y.toBits) : x = y := by
  obtain ⟨x, _⟩ := x
  obtain ⟨y, _⟩ := y
  cases (h : x = y)
  rfl

theorem isNaN_eq_false_iff : x.isNaN = false ↔ x.toModel.unpack ≠ .notANumber := by
  show x.toModel.unpack.isNaN = false ↔ _
  cases x.toModel.unpack with
  | notANumber => exact iff_of_false Bool.true_eq_false.mp fun ne => ne rfl
  | infinity | zero | finite => exact iff_of_true rfl UnpackedFloat.noConfusion

theorem sign_unpackSign (b : BitVec 64) :
    (Sign.ofBitVec (@unpackSign Format.binary64 b)).toBitVec.toNat = b.toNat / 2 ^ 63 := by
  have same (s : BitVec 1) : (Sign.ofBitVec s).toBitVec = s := by
    revert s
    decide
  have := b.isLt
  rw [same, toNat_unpackSign]
  omega

theorem toNat_neg_toBitVec (s : Sign) : (-s).toBitVec.toNat = 1 - s.toBitVec.toNat := by
  cases s <;> rfl

/-- **Bits are those of the number they are read as**, unless that is undefined. -/
theorem toBits_ofBits (h : unpack Format.binary64 b.toBitVec ≠ .notANumber) :
    (Float.ofBits b).toBits = b := by
  have packed := toNat_pack_ofFields (ofFields_unpack b.toBitVec) (Nat.mod_lt _ (by decide))
    (Nat.mod_lt _ (by decide)) h
  have := b.toBitVec.isLt
  rw [sign_unpackSign] at packed
  apply UInt64.toNat_inj.mp
  show (pack Format.binary64 (unpack Format.binary64 b.toBitVec)).toNat = b.toBitVec.toNat
  omega

/-- **The opposite number has the opposite sign bit.** -/
theorem toNat_toBits_neg (h : x.isNaN = false) :
    (-x).toBits.toNat = (x.toBits.toNat + 2 ^ 63) % 2 ^ 64 := by
  have defined : x.toModel.unpack.neg ≠ .notANumber := by
    have := isNaN_eq_false_iff.mp h
    cases hx : x.toModel.unpack with
    | notANumber => exact absurd hx this
    | infinity | zero | finite => exact UnpackedFloat.noConfusion
  have packed := toNat_pack_ofFields (ofFields_neg (ofFields_unpack x.toBits.toBitVec))
    (Nat.mod_lt _ (by decide)) (Nat.mod_lt _ (by decide)) defined
  have := x.toBits.toBitVec.isLt
  rw [toNat_neg_toBitVec, sign_unpackSign] at packed
  show (pack Format.binary64 (unpack Format.binary64 x.toBits.toBitVec).neg).toNat =
    (x.toBits.toBitVec.toNat + 2 ^ 63) % 2 ^ 64
  omega

theorem ofBits_toBits (h : x.isNaN = false) : Float.ofBits x.toBits = x :=
  eq_of_toBits (toBits_ofBits (isNaN_eq_false_iff.mp h))

theorem beq_self (h : x.isNaN = false) : (x == x) = true := by
  obtain ⟨a, ha⟩ := Rank.exists_rank (isNaN_eq_false_iff.mp h)
  exact Rank.beq_iff_compare.mpr (Rank.compare_eq_some.mpr ⟨a, a, ha, ha, rfl⟩)

/-- **Adding zero changes nothing** but the sign of zero. -/
theorem beq_add_zero (h : x.isNaN = false) : (x + 0 == x) = true := by
  have defined := isNaN_eq_false_iff.mp h
  have zero : (0 : Float).toModel.unpack = .zero .positive := by rfl
  have sum : x + 0 = .ofModel (.pack (UnpackedFloat.add Format.binary64 x.toModel.unpack
      (0 : Float).toModel.unpack)) := rfl
  have packed : .ofModel (.pack x.toModel.unpack) = x := ofBits_toBits h
  rw [zero] at sum
  rcases hx : x.toModel.unpack with s | _ | s | ⟨s, m, e, hm⟩
  case notANumber => exact absurd hx defined
  case zero =>
    rw [Rank.beq_iff_compare, sum, hx]
    cases s <;> rfl
  case infinity | finite =>
    rw [hx] at sum packed
    rw [sum.trans packed]
    exact beq_self h

/-- The bits of a number without its sign. -/
def magnitude (x : Float) : ℕ :=
  x.toBits.toNat % 2 ^ 63

theorem isNegative_iff : isNegative x = true ↔ 2 ^ 63 ≤ x.toBits.toNat := by
  have := x.toBits.toBitVec.isLt
  have shift : (x.toBits >>> 63).toNat = x.toBits.toNat / 2 ^ 63 := by
    rw [UInt64.toNat_shiftRight]
    exact Nat.shiftRight_eq_div_pow _ _
  have lt : x.toBits.toNat < 2 ^ 64 := x.toBits.toBitVec.isLt
  rw [isNegative, decide_eq_true_eq, ← UInt64.toNat_inj, shift]
  show x.toBits.toNat / 2 ^ 63 = 1 ↔ _
  omega

theorem magnitude_le (h : x.isNaN = false) : magnitude x ≤ infinityCode := by
  have fields := ofFields_unpack x.toBits.toBitVec
  have defined : unpack Format.binary64 x.toBits.toBitVec ≠ .notANumber := isNaN_eq_false_iff.mp h
  generalize unpack Format.binary64 x.toBits.toBitVec = u at fields defined
  rw [UInt64.toNat_toBitVec] at fields
  unfold magnitude infinityCode
  cases fields with
  | undefined => exact absurd rfl defined
  | infinity | zero | subnormal | normal => omega

/-- The number with the given magnitude. -/
def ofMagnitude (k : ℕ) : Float :=
  .ofBits (.ofNat k)

theorem toNat_toBits_ofMagnitude {k : ℕ} (h : k ≤ infinityCode) :
    (ofMagnitude k).toBits.toNat = k := by
  have bits : (UInt64.ofNat k).toNat = k := UInt64.toNat_ofNat_of_lt (h.trans_lt (by decide))
  have code := code?_unpack (b := (UInt64.ofNat k).toBitVec) (by rwa [UInt64.toNat_toBitVec, bits])
  have defined : unpack Format.binary64 (UInt64.ofNat k).toBitVec ≠ .notANumber := by
    intro undefined
    rw [undefined] at code
    cases code
  rw [ofMagnitude, toBits_ofBits defined, bits]

theorem isNaN_ofMagnitude {k : ℕ} (h : k ≤ infinityCode) : (ofMagnitude k).isNaN = false := by
  have code := code?_unpack (b := (ofMagnitude k).toBits.toBitVec)
    (by rwa [UInt64.toNat_toBitVec, toNat_toBits_ofMagnitude h])
  rw [isNaN_eq_false_iff]
  intro undefined
  rw [show unpack Format.binary64 (ofMagnitude k).toBits.toBitVec = .notANumber from undefined] at code
  cases code

/-- **A number is its magnitude with its sign.** -/
theorem signed_magnitude (h : x.isNaN = false) :
    x = if isNegative x then -(ofMagnitude (magnitude x)) else ofMagnitude (magnitude x) := by
  have lt : x.toBits.toNat < 2 ^ 64 := x.toBits.toBitVec.isLt
  have le := magnitude_le h
  have bits := toNat_toBits_ofMagnitude le
  apply eq_of_toBits
  apply UInt64.toNat_inj.mp
  split
  · next negative =>
    rw [isNegative_iff] at negative
    rw [toNat_toBits_neg (isNaN_ofMagnitude le), bits, magnitude]
    omega
  · next negative =>
    rw [isNegative_iff] at negative
    rw [bits, magnitude]
    omega

theorem magnitude_of_isInf (h : x.isInf = true) : magnitude x = infinityCode := by
  have fields := ofFields_unpack x.toBits.toBitVec
  have infinite : (unpack Format.binary64 x.toBits.toBitVec).isInf = true := h
  generalize unpack Format.binary64 x.toBits.toBitVec = u at fields infinite
  rw [UInt64.toNat_toBitVec] at fields
  unfold magnitude infinityCode
  cases fields with
  | infinity => omega
  | undefined | zero | subnormal | normal => cases infinite

theorem biased_lt (hx : x.isNaN = false) (h : x.isInf = false) :
    x.toBits.toNat / 2 ^ 52 % 2 ^ 11 ≠ 2047 := by
  have fields := ofFields_unpack x.toBits.toBitVec
  have defined : unpack Format.binary64 x.toBits.toBitVec ≠ .notANumber := isNaN_eq_false_iff.mp hx
  have finite : (unpack Format.binary64 x.toBits.toBitVec).isInf = false := h
  generalize unpack Format.binary64 x.toBits.toBitVec = u at fields defined finite
  rw [UInt64.toNat_toBitVec] at fields
  cases fields with
  | infinity => cases finite
  | undefined => exact absurd rfl defined
  | zero | subnormal | normal => omega

end Float

end Rounding

namespace Decimal

/-! ## Natural numbers -/

theorem isDigit_of_mem_natDigits {n : ℕ} {c : Char} (h : c ∈ natDigits n) : c.isDigit = true :=
  Nat.isDigit_of_mem_toDigits (by decide) (by decide) h

theorem natDigits_ne_nil (n : ℕ) : natDigits n ≠ [] :=
  Nat.toDigits_ne_nil

theorem natValue_natDigits (n : ℕ) : natValue (natDigits n) = n :=
  Nat.ofDigitChars_ten_toDigits

theorem le_ofDigitChars (n : ℕ) (digits : List Char) : n ≤ Nat.ofDigitChars 10 digits n := by
  induction digits generalizing n with
  | nil => exact Nat.le_refl n
  | cons c rest ih =>
    rw [Nat.ofDigitChars_cons]
    exact Nat.le_trans (by omega) (ih _)

theorem readDigits_eq_ok {n : ℕ} {digits : List Char} (h : ∀ c ∈ digits, c.isDigit = true)
    (lt : Nat.ofDigitChars 10 digits n < 2 ^ 64) :
    readDigits n digits = .ok (Nat.ofDigitChars 10 digits n) := by
  induction digits generalizing n with
  | nil => rfl
  | cons c rest ih =>
    obtain ⟨first, others⟩ := List.forall_mem_cons.mp h
    rw [Nat.ofDigitChars_cons] at lt ⊢
    have small : 10 * n + (c.toNat - '0'.toNat) < Nat.pow 2 64 :=
      (le_ofDigitChars _ rest).trans_lt lt
    simp only [readDigits, digit?, if_pos first, if_pos small]
    exact ih others lt

theorem readNat_of_isDigit {c : Char} (h : c.isDigit = true) (rest : List Char) :
    readNat (c :: rest) = readDigits 0 (c :: rest) := by
  unfold readNat
  split
  · contradiction
  · next heq =>
    cases heq
    exact absurd h (by decide)
  · rfl

/-- **A natural number reads back**, if it is not too large. -/
theorem readNat_natDigits {n : ℕ} (h : n < 2 ^ 64) : readNat (natDigits n) = .ok n := by
  have digits : ∀ c ∈ natDigits n, c.isDigit = true := fun _ => isDigit_of_mem_natDigits
  have value := natValue_natDigits n
  cases hn : natDigits n with
  | nil => exact absurd hn (natDigits_ne_nil n)
  | cons c rest =>
    rw [hn] at digits value
    rw [readNat_of_isDigit (digits c List.mem_cons_self), readDigits_eq_ok digits]
    · exact congrArg _ value
    · exact lt_of_eq_of_lt value h

/-- Every number that is read is small enough. -/
theorem lt_of_readNat {text : List Char} {n : ℕ} (h : readNat text = .ok n) : n < 2 ^ 64 := by
  have general {digits : List Char} {k : ℕ} (lt : k < 2 ^ 64) (h : readDigits k digits = .ok n) :
      n < 2 ^ 64 := by
    induction digits generalizing k with
    | nil => exact Except.ok.inj h ▸ lt
    | cons c rest ih =>
      rw [readDigits] at h
      split at h
      · cases h
      · split at h
        · next small => exact ih small h
        · cases h
  unfold readNat at h
  split at h
  · cases h
  · exact general (by decide) h
  · exact general (by decide) h

/-! ## Decimals -/

theorem value_stripZeros (k : ℕ) (d : Decimal) : (d.stripZeros k).value = d.value := by
  induction k generalizing d with
  | zero => rfl
  | succ k ih =>
    unfold stripZeros
    split
    · next h =>
      obtain ⟨q, hq⟩ := Nat.dvd_of_mod_eq_zero h.2
      rw [ih, value, value, hq, Nat.mul_div_cancel_left q (by decide), zpow_add_one₀ (by decide)]
      push_cast
      ring
    · rfl

/-- The text with the given digits before and behind the point, which is left out if nothing follows
it. -/
def literal (whole places : List Char) : List Char :=
  whole ++ if places = [] then [] else '.' :: places

/-- Digits before and behind the point that stand for a decimal. -/
structure Spells (whole places : List Char) (d : Decimal) : Prop where
  isDigit : ∀ c ∈ whole ++ places, c.isDigit = true
  whole_ne_nil : whole ≠ []
  value_eq : (⟨natValue (whole ++ places), -places.length⟩ : Decimal).value = d.value

variable {whole places : List Char} {d : Decimal}

theorem spells_withPlaces {k : ℕ} (hk : 0 < k) (n : ℕ) :
    ∃ whole places, withPlaces (natDigits n) k = literal whole places ∧
      Spells whole places ⟨n, -k⟩ := by
  let filled := List.replicate (k + 1 - (natDigits n).length) '0' ++ natDigits n
  have length : k < filled.length := by
    simp only [filled, List.length_append, List.length_replicate]
    omega
  have parts := List.take_append_drop (filled.length - k) filled
  have places_length : (filled.drop (filled.length - k)).length = k := by
    rw [List.length_drop]
    omega
  have places_ne : filled.drop (filled.length - k) ≠ [] := by
    intro h
    rw [h] at places_length
    exact hk.ne places_length
  refine ⟨filled.take (filled.length - k), filled.drop (filled.length - k), ?_, ?_, ?_, ?_⟩
  · rw [literal, if_neg places_ne, withPlaces, if_neg hk.ne']
  · rw [parts]
    intro c hc
    rcases List.mem_append.mp hc with zero | digit
    · obtain ⟨-, rfl⟩ := List.mem_replicate.mp zero
      rfl
    · exact isDigit_of_mem_natDigits digit
  · intro h
    have := congrArg List.length h
    rw [List.length_take, List.length_nil] at this
    omega
  · have digits : natValue filled = n := by
      rw [natValue, Nat.ofDigitChars_append, Nat.ofDigitChars_replicate_zero, Nat.mul_zero]
      exact natValue_natDigits n
    rw [parts, places_length, digits]

/-- **What is printed spells the decimal.** -/
theorem spells_positional (d : Decimal) :
    ∃ whole places, d.positional = literal whole places ∧ Spells whole places d := by
  have strip := value_stripZeros (natDigits d.digits).length d
  unfold positional
  generalize d.stripZeros (natDigits d.digits).length = e at strip ⊢
  simp only
  split
  · next negative =>
    obtain ⟨whole, places, text, spells⟩ :=
      spells_withPlaces (k := (-e.exponent).toNat) (by omega) e.digits
    refine ⟨whole, places, text, spells.isDigit, spells.whole_ne_nil, ?_⟩
    rw [spells.value_eq, ← strip]
    congr 2
    omega
  · next whole =>
    refine ⟨natDigits e.digits ++ List.replicate e.exponent.toNat '0', [], by simp [literal],
      ?_, ?_, ?_⟩
    · intro c hc
      rw [List.append_nil] at hc
      rcases List.mem_append.mp hc with digit | zero
      · exact isDigit_of_mem_natDigits digit
      · obtain ⟨-, rfl⟩ := List.mem_replicate.mp zero
        rfl
    · exact List.append_ne_nil_of_left_ne_nil (natDigits_ne_nil _) _
    · have digits : natValue (natDigits e.digits ++ List.replicate e.exponent.toNat '0') =
          10 ^ e.exponent.toNat * e.digits := by
        rw [natValue, Nat.ofDigitChars_append, Nat.ofDigitChars_replicate_zero]
        exact congrArg _ (natValue_natDigits e.digits)
      have power := zpow_mul_pow_toNat (by decide : (10 : ℚ) ≠ 0) e.exponent
      rw [show (-e.exponent).toNat = 0 by omega, pow_zero, mul_one] at power
      rw [List.append_nil, digits, ← strip, value, value, power]
      push_cast
      simp [mul_comm]

theorem splitDigits_append {digits rest : List Char} (h : ∀ c ∈ digits, c.isDigit = true)
    (hr : rest.head?.all fun c => !c.isDigit) : splitDigits (digits ++ rest) = (digits, rest) := by
  obtain ⟨run, stop⟩ := Text.takeWhile_append_of_head h hr
  rw [splitDigits, run, stop]

/-- **A decimal reads back** as one with the same value. -/
theorem readUnsigned_literal (h : Spells whole places d) :
    readUnsigned (literal whole places) =
      some ⟨natValue (whole ++ places), -places.length⟩ := by
  obtain ⟨digits, ne, -⟩ := h
  have digits_whole : ∀ c ∈ whole, c.isDigit = true := fun c hc => digits c (by simp [hc])
  have digits_places : ∀ c ∈ places, c.isDigit = true := fun c hc => digits c (by simp [hc])
  unfold readUnsigned literal
  by_cases none : places = []
  · subst none
    rw [if_pos rfl, splitDigits_append digits_whole rfl]
    simp [ne, readExponent]
  · have split : splitDigits (places ++ []) = (places, []) := splitDigits_append digits_places rfl
    rw [List.append_nil] at split
    rw [if_neg none, splitDigits_append digits_whole (by simp)]
    simp [ne, split, readExponent]

end Decimal

open Rounding

namespace Binary

variable {b : UInt64}

theorem toNat_biased : ((b >>> 52) &&& 0x7FF).toNat = b.toNat / 2 ^ 52 % 2 ^ 11 := by
  rw [UInt64.toNat_and, UInt64.toNat_shiftRight]
  show (b.toNat >>> 52) &&& (2 ^ 11 - 1) = _
  rw [Nat.and_two_pow_sub_one_eq_mod, Nat.shiftRight_eq_div_pow]

theorem toNat_fraction : (b &&& 0xFFFFFFFFFFFFF).toNat = b.toNat % 2 ^ 52 := by
  rw [UInt64.toNat_and]
  show b.toNat &&& (2 ^ 52 - 1) = _
  rw [Nat.and_two_pow_sub_one_eq_mod]

theorem code_ofBits : (ofBits b).code = b.toNat % 2 ^ 63 := by
  simp only [ofBits, toNat_biased, toNat_fraction, Nat.pow_eq]
  split
  · show b.toNat % 2 ^ 52 + 0 * 2 ^ 52 = _
    omega
  · show 2 ^ 52 + b.toNat % 2 ^ 52 +
      ((b.toNat / 2 ^ 52 % 2 ^ 11 : ℕ) - 1075 + 1074 : ℤ).toNat * 2 ^ 52 = _
    omega

theorem stored_ofBits (h : b.toNat / 2 ^ 52 % 2 ^ 11 ≠ 2047) : (ofBits b).Stored := by
  simp only [ofBits, toNat_biased, toNat_fraction, Nat.pow_eq]
  split
  · refine ⟨⟨?_, Int.le_refl _, .inr rfl⟩, show (-1074 : ℤ) ≤ 971 by decide, ?_⟩
    · show b.toNat % 2 ^ 52 < 2 ^ 53
      omega
    · exact ⟨nofun, fun h => absurd h.2 (Int.lt_irrefl _)⟩
  · refine ⟨⟨?_, ?_, .inl (Nat.le_add_right _ _)⟩, ?_, ?_⟩
    all_goals simp only [Bool.and_eq_true, decide_eq_true_eq]; omega

end Binary

namespace Decimal

/-! ## Numbers -/

theorem toLower_of_isDigit {c : Char} (h : c.isDigit = true) : c.toLower = c := by
  have range := Char.isDigit_iff_toNat.mp h
  refine dif_neg fun upper => ?_
  have := UInt32.le_iff_toNat_le.mp upper.1
  exact absurd (Nat.le_trans this range.2) (by decide)

variable {whole places : List Char} {d : Decimal}

theorem head_literal (h : Spells whole places d) :
    ∃ c rest, literal whole places = c :: rest ∧ c.isDigit = true := by
  obtain ⟨digits, ne, -⟩ := h
  cases whole with
  | nil => exact absurd rfl ne
  | cons c rest => exact ⟨c, _, rfl, digits c (by simp)⟩

theorem readMagnitude_literal (h : Spells whole places d) : readMagnitude (literal whole places) =
    some (ofMagnitude (⟨natValue (whole ++ places), -places.length⟩ : Decimal).bits) := by
  obtain ⟨c, rest, text, digit⟩ := head_literal h
  have no_word {e : Char} {word : List Char} (he : e.isDigit = false) :
      (literal whole places).map Char.toLower ≠ e :: word := by
    rw [text, List.map_cons, toLower_of_isDigit digit]
    rintro ⟨⟩
    rw [digit] at he
    cases he
  unfold readMagnitude
  simp only
  rw [if_neg (not_or.mpr ⟨no_word (by decide), no_word (by decide)⟩), if_neg (no_word (by decide)),
    readUnsigned_literal h]
  rfl

end Decimal

namespace Binary

open Decimal

variable {x : Binary} {d e : Decimal}

theorem readsBack_congr (h : d.value = e.value) : x.readsBack d = x.readsBack e := by
  simp only [readsBack, compareDecimal_eq, h]

/-- **The magnitude of a number reads back.** -/
theorem exists_literal (stored : x.Stored) : ∃ whole places d,
    x.positional = literal whole places ∧ Spells whole places d ∧
      (⟨natValue (whole ++ places), -places.length⟩ : Decimal).bits = x.code := by
  unfold Binary.positional
  split
  · next zero =>
    have least : x.exponent = -1074 := stored.canonical.normal.resolve_left (by omega)
    refine ⟨['0'], [], ⟨0, 0⟩, rfl,
      ⟨List.all_eq_true.mp (by decide), by decide, congrArg Decimal.value (by decide)⟩, ?_⟩
    rw [code, zero, least]
    rfl
  · next nonzero =>
    have pos := Nat.pos_of_ne_zero nonzero
    obtain ⟨whole, places, text, spells⟩ := spells_positional x.shortest
    refine ⟨whole, places, x.shortest, text, spells, bits_of_readsBack pos stored ?_⟩
    rw [readsBack_congr spells.value_eq]
    exact readsBack_shortest pos

end Binary

namespace Decimal

variable {x : Float}

/-- The text of a number without its sign. -/
def magnitudeText (x : Float) : List Char :=
  if x.isInf then ['i', 'n', 'f'] else (Binary.ofBits x.toBits).positional

theorem toList_numberText (h : x.isNaN = false) : (numberText x).toList =
    if isNegative x then '-' :: magnitudeText x else magnitudeText x := by
  rw [numberText, h, if_neg (by decide), magnitudeText, signed, signed]
  cases x.isInf <;> exact String.toList_ofList

/-- A digit, or one of the characters of a word for a number. -/
def isNumeral (c : Char) : Bool :=
  c.isDigit || c ∈ ['-', '.', 'i', 'n', 'f', 'N', 'a']

theorem exists_magnitudeText (h : x.isNaN = false) :
    readMagnitude (magnitudeText x) = some (ofMagnitude (magnitude x)) ∧
      (∃ c rest, magnitudeText x = c :: rest ∧ c ≠ '-' ∧ c ≠ '+') ∧
      ∀ c ∈ magnitudeText x, isNumeral c = true := by
  unfold magnitudeText
  cases infinite : x.isInf with
  | true =>
    rw [if_pos rfl, magnitude_of_isInf infinite]
    exact ⟨by decide +kernel, ⟨_, _, rfl, by decide, by decide⟩, List.all_eq_true.mp (by decide)⟩
  | false =>
    have stored := Binary.stored_ofBits (biased_lt h infinite)
    obtain ⟨whole, places, d, text, spells, bits⟩ := Binary.exists_literal stored
    rw [if_neg (by decide), text, readMagnitude_literal spells, bits, Binary.code_ofBits]
    refine ⟨rfl, ?_, ?_⟩
    · obtain ⟨c, rest, hc, digit⟩ := head_literal spells
      refine ⟨c, rest, hc, ?_, ?_⟩ <;> rintro rfl <;> cases digit
    · intro c hc
      rcases List.mem_append.mp hc with first | second
      · simp [isNumeral, spells.isDigit c (List.mem_append_left _ first)]
      · split at second
        · cases second
        · rcases List.mem_cons.mp second with rfl | second
          · decide
          · simp [isNumeral, spells.isDigit c (List.mem_append_right _ second)]

theorem readFloat_of_readMagnitude {negative : Bool} {text : List Char} {y : Float}
    (head : ∃ c rest, text = c :: rest ∧ c ≠ '-' ∧ c ≠ '+') (h : readMagnitude text = some y) :
    readFloat (if negative then '-' :: text else text) = .ok (if negative then -y else y) := by
  cases negative with
  | true =>
    rw [if_pos rfl, if_pos rfl, readFloat, h]
    rfl
  | false =>
    obtain ⟨c, rest, rfl, minus, plus⟩ := head
    rw [if_neg (by decide), if_neg (by decide)]
    unfold readFloat
    split
    · contradiction
    · next heq => exact absurd (List.cons.inj heq).1 minus
    · next heq => exact absurd (List.cons.inj heq).1 plus
    · rw [h]
      rfl

/-- **A number reads back**, infinite ones and the sign of zero included. -/
theorem readFloat_numberText (h : x.isNaN = false) : readFloat (numberText x).toList = .ok x := by
  obtain ⟨read, head, -⟩ := exists_magnitudeText h
  rw [toList_numberText h, readFloat_of_readMagnitude head read, ← signed_magnitude h]

theorem isNumeral_of_mem_numberText {c : Char} (hc : c ∈ (numberText x).toList) :
    isNumeral c = true := by
  cases h : x.isNaN with
  | true =>
    rw [numberText, if_pos h] at hc
    exact List.all_eq_true.mp (by decide) c hc
  | false =>
    rw [toList_numberText h] at hc
    split at hc
    · rcases List.mem_cons.mp hc with rfl | hc
      · decide
      · exact (exists_magnitudeText h).2.2 c hc
    · exact (exists_magnitudeText h).2.2 c hc

end Decimal

end HoleBlame
