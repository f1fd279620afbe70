import HoleBlame.Proofs.Rewards

/-!
# A shortened chain always goes on

A chain is `Live` if every state has a transition and no transition has weight zero or less.  A chain that
has been accepted is live (`Draft.live_of_finish`): the weights of a row that is empty would add up to zero.

A shortened chain of such a member is live as well (`Shortcut.Shortens.live`).  This needs an argument for
the detours.  For a probability they leave out a transition that would have weight zero, but both are left
out for no bound in the unit interval, and the remaining probability `1 - b` of a bound below one does not
round to zero: differences of binary64 numbers are multiples of the smallest positive one, so none but that
of equal numbers is lost (`Rounding.sub_pos`).
-/

namespace HoleBlame

/-! ## Differences of binary64 numbers -/

namespace Rounding

open Float.Model (Format UnpackedFloat)
open Float.Model.UnpackedFloat

section Difference

variable {u v : UnpackedFloat} {b c : ℕ}

/-- The bits of a finite number are those of its units. -/
theorem encode_units_eq (hu : Read u) (hb : code? u = some b) (finite : b < infinityCode) :
    encode (units u) (-1074) = b := by
  rcases u with (_ | _) | _ | _ | ⟨_ | _, m, e, hm⟩ <;> cases hb
  · exact absurd finite (Nat.lt_irrefl _)
  · exact encode_zero
  · exact encode_units hm hu.1

/-- The units of a number that is larger are larger. -/
theorem units_lt_units (hu : Read u) (hv : Read v) (hb : code? u = some b) (hc : code? v = some c)
    (lt : b < c) (finite : c < infinityCode) : units u < units v := by
  by_contra le
  have pos := units_pos hc (Nat.zero_lt_of_lt lt) finite
  have := encode_le_encode pos (Nat.le_of_not_lt le) (le_max_right _ (-1074))
  rw [encode_units_eq hu hb (lt.trans finite), encode_units_eq hv hc finite] at this
  exact absurd this lt.not_ge

theorem code?_normalize (k : ℕ) {e : ℤ} (he : -1074 ≤ e) :
    code? (unpack Format.binary64 (pack Format.binary64
        (UnpackedFloat.normalize Format.binary64 k e .positive))) =
      some (min (encode (k * 2 ^ (e + 1074).toNat) (-1074)) infinityCode) := by
  rcases Nat.eq_zero_or_pos k with rfl | pos
  · have zero : UnpackedFloat.normalize Format.binary64 (0 : ℕ) e .positive = .zero .positive := rfl
    rw [Nat.zero_mul, encode_zero, zero]
    rfl
  · rw [UnpackedFloat.normalize,
      show compare (k : ℤ) 0 = .gt from compare_gt_iff_gt.mpr (Int.natCast_pos.mpr pos)]
    exact code?_unpack_pack (toNat_pack_round_positive pos he)

/-- **The bits of a difference are those of the rounded difference of the units.** -/
theorem code?_sub (hu : Read u) (hv : Read v) (hb : code? u = some b) (hc : code? v = some c)
    (le : c ≤ b) (finite : b < infinityCode) :
    code? (unpack Format.binary64 (pack Format.binary64 (UnpackedFloat.sub Format.binary64 u v))) =
      some (min (encode (units u - units v) (-1074)) infinityCode) := by
  have less := units_le_units hv hu hc hb le finite
  rcases u with (_ | _) | _ | s | ⟨_ | _, m, e, hm⟩ <;> cases hb
  case infinity.positive.refl => exact absurd finite (Nat.lt_irrefl _)
  case zero.refl =>
    rcases v with (_ | _) | _ | s' | ⟨_ | _, m', e', hm'⟩ <;> cases hc
    case infinity.positive.refl => exact absurd le infinityCode_pos.not_ge
    case zero.refl =>
      show _ = some (min (encode 0 (-1074)) infinityCode)
      rw [encode_zero]
      cases s <;> cases s' <;> rfl
    case finite.positive.refl => exact absurd le (code_finite hm' hv.1 hv.2).1.not_ge
  case finite.positive.refl =>
    rcases v with (_ | _) | _ | s' | ⟨_ | _, m', e', hm'⟩ <;> cases hc
    case infinity.positive.refl => exact absurd finite le.not_gt
    case zero.refl =>
      show _ = some (min (encode (m * 2 ^ (e + 1074).toNat) (-1074)) infinityCode)
      rw [encode_units hm hu.1]
      exact code?_unpack_pack (toNat_pack hm hu.1)
    case finite.positive.refl =>
      have lower := hu.1.le
      have lower' := hv.1.le
      have rescaled : (m * 2 ^ (e - min e e').toNat - m' * 2 ^ (e' - min e e').toNat) *
          2 ^ (min e e' + 1074).toNat = m * 2 ^ (e + 1074).toNat - m' * 2 ^ (e' + 1074).toNat := by
        rw [Nat.sub_mul, mul_assoc, mul_assoc, ← pow_add, ← pow_add]
        congr 3 <;> omega
      have shifted : m' * 2 ^ (e' - min e e').toNat ≤ m * 2 ^ (e - min e e').toNat := by
        refine Nat.le_of_mul_le_mul_right ?_ (Nat.two_pow_pos (min e e' + 1074).toNat)
        rw [mul_assoc, mul_assoc, ← pow_add, ← pow_add]
        rwa [show (e' - min e e').toNat + (min e e' + 1074).toNat = (e' + 1074).toNat by omega,
          show (e - min e e').toNat + (min e e' + 1074).toNat = (e + 1074).toNat by omega]
      -- Both mantissas are shifted to the smaller exponent, and one is taken from the other.
      have taken : UnpackedFloat.sub Format.binary64 (.finite .positive m e hm)
          (.finite .positive m' e' hm') = UnpackedFloat.normalize Format.binary64
            ((m * 2 ^ (e - min e e').toNat - m' * 2 ^ (e' - min e e').toNat : ℕ) : ℤ)
            (min e e') .positive := by
        show UnpackedFloat.normalize Format.binary64 (((m <<< (e - min e e').toNat : ℕ) : ℤ) -
          ((m' <<< (e' - min e e').toNat : ℕ) : ℤ)) (min e e') .positive = _
        rw [Nat.shiftLeft_eq, Nat.shiftLeft_eq, Nat.cast_sub shifted]
      rw [taken, code?_normalize _ (by omega), rescaled]
      rfl

end Difference

section Float

variable {x y : Float}

/-- **A number taken away from a larger one leaves something.** -/
theorem sub_pos (nonneg : 0 ≤ x) (lt : x < y) (finite : y < Scalar.infinity) : 0 < y - x := by
  obtain ⟨b, hb⟩ := exists_code nonneg
  obtain ⟨c, hc⟩ := exists_code (le_trans nonneg (Scalar.Ordered.le_iff.mpr (.inl lt)))
  have hbc := (lt_iff_of_code hb hc).mp lt
  have hc' := (lt_iff_of_code hc code_infinity).mp finite
  have rest := units_lt_units (read_toModel x) (read_toModel y) hb hc hbc hc'
  have difference : code (y - x) = some _ :=
    code?_sub (read_toModel y) (read_toModel x) hc hb hbc.le hc'
  rw [lt_iff_of_code code_zero difference]
  have one_le : encode 1 (-1074) ≤ _ :=
    encode_le_encode Nat.one_pos (Nat.sub_pos_of_lt rest) (le_max_right _ _)
  exact lt_min (one_le.trans_lt' (by decide)) infinityCode_pos

theorem clampUnit_mem_unit (h : x.isFinite = true) :
    0 ≤ Scalar.clampUnit x ∧ Scalar.clampUnit x ≤ 1 := by
  unfold Scalar.clampUnit
  split
  · decide +kernel
  · next below =>
    split
    · decide +kernel
    · next above =>
      exact ⟨le_of_not_lt (by decide +kernel) h below, le_of_not_lt h (by decide +kernel) above⟩

end Float

end Rounding

variable {n : ℕ}

/-! ## Chains that go on -/

/-- Every state has a transition, and every transition has a positive weight. -/
structure Chain.Live (c : Chain Float n) : Prop where
  nonempty : ∀ s, c.row s ≠ []
  positive : ∀ s, ∀ e ∈ c.row s, 0 < e.prob

/-- A chain that has been accepted goes on. -/
theorem Draft.live_of_finish {d : Draft} {initial : ℕ} {c : Chain Float n}
    (h : d.finish initial = .ok ⟨n, c⟩) : c.Live := by
  refine ⟨fun s none => ?_, fun s e he => (proper_of_finish h s e he).1⟩
  have off : isOff (rowSum ([] : List (Edge Float n))) = true := by
    show isOff 0 = true
    decide +kernel
  have sum := (finish_eq_ok_iff.mp h).sums s
  rw [none, off] at sum
  cases sum

namespace Shortcut

/-! ## Shortened chains go on -/

variable {m : Member Float n} {priors : Priors Float} {p : Property Float} {target : StateSet n}
  {x : Shortcut Float n}

theorem refused?_of_ofMember (h : ofMember m priors p = .ok x) :
    refused? m priors p.formula.kind = none := by
  obtain ⟨known, model⟩ := known_of_ofMember h
  obtain ⟨target, ht⟩ := Option.isSome_iff_exists.mp known.target
  rw [ofMember_eq_unexpanded ht known model, unexpanded] at h
  split at h
  · cases h
  · assumption

/-- The bounds on probabilities that are used lie in the unit interval. -/
theorem bounds_mem_unit (accepted : refused? m priors .probability = none) (safety : Bool) (s : Fin n) :
    0 ≤ (bounds m priors .probability safety).get s ∧ (bounds m priors .probability safety).get s ≤ 1 := by
  have eq : (bounds m priors .probability safety).get s =
      ((priors.bound? (m.quotientState.get s)).map (BoundKind.adjust .probability)).getD
        (BoundKind.trivial .probability safety) := by
    simp [bounds, get_eq_getElem]
  rw [eq]
  rw [refused?, List.findSome?_eq_none_iff] at accepted
  have accepted := accepted (m.quotientState.get s) (by simp [get_eq_getElem])
  cases known : priors.bound? (m.quotientState.get s) with
  | none => cases safety <;> decide +kernel
  | some bound =>
    refine Rounding.clampUnit_mem_unit ?_
    by_contra infinite
    have : BoundKind.accepts .probability bound = false := Bool.eq_false_iff.mpr infinite
    simp [known, this] at accepted

theorem detour_probability_ne_nil {bound : Float} (h : 0 ≤ bound) :
    detour (n := n) .probability bound ≠ [] := by
  obtain ⟨b, hb⟩ := Rounding.exists_code h
  have one : Rounding.code 1 = some 0x3FF0000000000000 := by decide +kernel
  unfold detour
  by_cases below : bound < 1
  · simp [below]
  · have above : 0 < bound := by
      rw [Rounding.lt_iff_of_code hb one] at below
      rw [Rounding.lt_iff_of_code Rounding.code_zero hb]
      omega
    simp [above]

/-- **A detour leads on**, if a probability that is known as its bound lies in the unit interval. -/
theorem live_detour {kind : BoundKind} {bound : Float} (h : kind = .probability → 0 ≤ bound) :
    detour (n := n) kind bound ≠ [] ∧ ∀ e ∈ detour (n := n) kind bound, 0 < e.prob := by
  cases kind with
  | reward =>
    refine ⟨List.cons_ne_nil _ _, fun e he => ?_⟩
    rw [List.mem_singleton.mp he]
    exact Scalar.Ordered.zero_lt_one
  | probability =>
    have nonneg := h rfl
    refine ⟨detour_probability_ne_nil nonneg, fun e he => ?_⟩
    rcases List.mem_append.mp he with he | he <;> split at he
    · next below =>
      rw [List.mem_singleton.mp he]
      exact Rounding.sub_pos nonneg below Scalar.Monotone.one_lt_infinity
    · cases he
    · next above =>
      rw [List.mem_singleton.mp he]
      exact above
    · cases he

/-- **A shortened chain goes on**, whatever states are expanded. -/
theorem Shortens.live (h : x.Shortens m priors p target)
    (accepted : refused? m priors p.formula.kind = none) (live : m.chain.Live) : x.chain.Live := by
  have row (t : Fin (n + 2)) : x.chain.row t ≠ [] ∧ ∀ e ∈ x.chain.row t, 0 < e.prob := by
    have loop (t : Fin (n + 2)) : [(⟨t, 1⟩ : Edge Float (n + 2))] ≠ [] ∧
        ∀ e ∈ [(⟨t, 1⟩ : Edge Float (n + 2))], 0 < e.prob := by
      refine ⟨List.cons_ne_nil _ _, fun e he => ?_⟩
      rw [List.mem_singleton.mp he]
      exact Scalar.Ordered.zero_lt_one
    rcases lift_or_sink t with ⟨s, rfl⟩ | rfl | rfl
    · rw [h.row_lift]
      split
      · refine ⟨fun none => live.nonempty s (List.map_eq_nil_iff.mp none), fun e he => ?_⟩
        obtain ⟨edge, inRow, rfl⟩ := List.mem_map.mp he
        exact live.positive s edge inRow
      · refine live_detour fun kind => ?_
        rw [kind] at accepted ⊢
        exact (bounds_mem_unit accepted _ s).1
    · rw [h.row_sinkFalse]
      exact loop _
    · rw [h.row_sinkTrue]
      exact loop _
  exact ⟨fun t => (row t).1, fun t => (row t).2⟩

end Shortcut

end HoleBlame
