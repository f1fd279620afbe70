import HoleBlame.Proofs.Iteration
import HoleBlame.Proofs.Binary64
import HoleBlame.Proofs.Numerals
import Mathlib.Order.Bounds.Basic

/-!
# When values settle

Values settle in the first round whose largest change is within the precision.  With binary numbers this change is
found by comparing: a state counts if its new value is not equal to the old one, and a difference that is undefined
is passed over (`Checker.Changed`).  What is kept of the states looked at so far is the largest change among them,
whatever comes next (`Checker.LargestAmong.append`), so the change of a round does not depend on the order of the
states (`Checker.largestChange_change`).

So the values are those after the least number of rounds that makes the change small enough, if that is within the
limit, and a state outside the set keeps its first value (`Checker.roundByRound_values`).
-/

namespace HoleBlame

namespace Rounding

open Float.Model (Format UnpackedFloat)
open Float.Model.UnpackedFloat

variable {x : Float}

/-- An absolute value that is defined has the bits of a number that is not negative, and it is zero only as
the positive one. -/
theorem exists_code_abs (h : x.abs.isNaN = false) : ∃ b, code x.abs = some b ∧ (b = 0 → x.abs = 0) := by
  have defined := isNaN_eq_false_iff.mp h
  have stored : x.abs.toModel.unpack =
      unpack Format.binary64 (pack Format.binary64 (UnpackedFloat.abs x.toModel.unpack)) := rfl
  have read := read_toModel x
  rw [code, stored]
  rw [stored] at defined
  rcases hx : x.toModel.unpack with s | _ | s | ⟨s, m, e, hm⟩ <;> rw [hx] at read defined
  · exact ⟨_, code?_unpack_pack_of_read (u := .infinity .positive) trivial rfl, fun zero => absurd zero (by decide)⟩
  · exact absurd rfl defined
  · refine ⟨_, code?_unpack_pack_of_read (u := .zero .positive) trivial rfl, fun _ => eq_of_toBits ?_⟩
    show UInt64.ofBitVec (pack Format.binary64 (UnpackedFloat.abs x.toModel.unpack)) = _
    rw [hx]
    rfl
  · exact ⟨_, code?_unpack_pack_of_read (u := .finite .positive m e hm) read rfl,
      fun zero => absurd zero (code_finite hm read.1 read.2).1.ne'⟩

/-- What is undefined does not change by anything. -/
theorem isNaN_abs_sub_self (h : x.isNaN = true) : (x - x).abs.isNaN = true := by
  have undefined : x.toModel.unpack = .notANumber := by
    by_contra defined
    rw [isNaN_eq_false_iff.mpr defined] at h
    cases h
  show (unpack Format.binary64 (pack Format.binary64 (UnpackedFloat.abs (unpack Format.binary64
    (pack Format.binary64 (UnpackedFloat.sub Format.binary64 x.toModel.unpack x.toModel.unpack)))))).isNaN = true
  rw [undefined]
  rfl

end Rounding

namespace Checker

open Rounding

variable {n : ℕ}

/-- The value of a state has changed.  A change that is undefined does not count. -/
structure Changed (old new : Vector Float n) (s : Fin n) : Prop where
  unequal : (new.get s == old.get s) = false
  defined : (new.get s - old.get s).abs.isNaN = false

/-- The largest number by which one of some values has changed, which is zero if none has. -/
structure LargestAmong (old new : Vector Float n) (states : List (Fin n)) (d : Float) : Prop where
  attained : (d = 0 ∧ ∀ s ∈ states, ¬ Changed old new s) ∨
    ∃ s ∈ states, Changed old new s ∧ d = (new.get s - old.get s).abs
  largest : ∀ s ∈ states, Changed old new s → (new.get s - old.get s).abs ≤ d

/-- The largest number by which a value has changed, which is zero if none has. -/
def LargestChange (old new : Vector Float n) (d : Float) : Prop :=
  LargestAmong old new (List.finRange n) d

variable {old new : Vector Float n} {list : List (Fin n)} {s : Fin n} {d : Float}

theorem LargestAmong.isNaN (h : LargestAmong old new list d) : d.isNaN = false := by
  rcases h.attained with ⟨rfl, -⟩ | ⟨s, -, changed, rfl⟩
  · decide +kernel
  · exact changed.defined

theorem LargestAmong.append_of_not_changed (h : LargestAmong old new list d)
    (same : ¬ Changed old new s) : LargestAmong old new (list ++ [s]) d := by
  have largest : ∀ t ∈ [s], Changed old new t → (new.get t - old.get t).abs ≤ d :=
    List.forall_mem_singleton.mpr fun changed => absurd changed same
  refine ⟨?_, List.forall_mem_append.mpr ⟨h.largest, largest⟩⟩
  rcases h.attained with ⟨rfl, none⟩ | ⟨t, mem, attained⟩
  · exact .inl ⟨rfl, List.forall_mem_append.mpr ⟨none, List.forall_mem_singleton.mpr same⟩⟩
  · exact .inr ⟨t, List.mem_append_left _ mem, attained⟩

theorem LargestAmong.append_of_changed (h : LargestAmong old new list d) (changed : Changed old new s) :
    LargestAmong old new (list ++ [s]) (larger d (new.get s - old.get s).abs) := by
  have order {x y : Float} (hx : x.isNaN = false) (hy : y.isNaN = false) : ¬ x < y ↔ y ≤ x :=
    not_lt_iff (isNaN_eq_false_iff.mp hx) (isNaN_eq_false_iff.mp hy)
  obtain ⟨b, hb, zero⟩ := exists_code_abs changed.defined
  unfold larger
  split
  · next below =>
    refine ⟨.inr ⟨s, by simp, changed, rfl⟩, List.forall_mem_append.mpr ⟨fun t mem changed' => ?_, ?_⟩⟩
    · exact Rounding.le_trans (h.largest t mem changed') (Scalar.Monotone.le_of_lt below)
    · exact List.forall_mem_singleton.mpr fun _ => (le_iff_of_code hb hb).mpr (Nat.le_refl b)
  · next above =>
    have le := (order h.isNaN changed.defined).mp above
    refine ⟨?_, List.forall_mem_append.mpr ⟨h.largest, List.forall_mem_singleton.mpr fun _ => le⟩⟩
    rcases h.attained with ⟨rfl, -⟩ | ⟨t, mem, attained⟩
    · -- Then the change is zero itself.
      refine .inr ⟨s, by simp, changed, (zero ?_).symm⟩
      exact Nat.le_zero.mp ((le_iff_of_code hb code_zero).mp le)
    · exact .inr ⟨t, List.mem_append_left _ mem, attained⟩

variable {c : Chain Float n} {reward : Fin n → Float} {states : StateSet n} {values : Vector Float n}

/-- Values that are equal or undefined have not changed. -/
theorem not_changed_of_eq (same : new.get s = old.get s) : ¬ Changed old new s := by
  rintro ⟨unequal, defined⟩
  rw [same] at unequal defined
  cases undefined : (old.get s).isNaN with
  | false =>
    rw [beq_self undefined] at unequal
    cases unequal
  | true =>
    rw [isNaN_abs_sub_self undefined] at defined
    cases defined

/-- The change that is kept of two is the larger one, if the new one counts. -/
theorem LargestAmong.append (hs : s ∈ states)
    (h : LargestAmong values (round c reward states values) list d) :
    LargestAmong values (round c reward states values) (list ++ [s]) (joinChange c reward values d s) := by
  have value : (round c reward states values).get s = update c reward values s := get_round_of_mem hs
  unfold joinChange
  rw [← value]
  split
  · next same => exact h.append_of_not_changed fun changed => by simp [changed.unequal] at same
  · next unequal =>
    cases undefined : ((round c reward states values).get s - values.get s).abs.isNaN with
    | false => exact h.append_of_changed ⟨by simpa using unequal, undefined⟩
    | true =>
      -- Nothing is smaller than an undefined number.
      have below : ¬ d < ((round c reward states values).get s - values.get s).abs := by
        intro lt
        have := (Rank.ne_notANumber (Rank.lt_iff_compare.mp lt)).2
        rw [isNaN_eq_false_iff.mpr this] at undefined
        cases undefined
      rw [show larger d (Scalar.abs ((round c reward states values).get s - values.get s)) = d from if_neg below]
      refine h.append_of_not_changed fun changed => ?_
      rw [changed.defined] at undefined
      cases undefined

/-- **The change of a round is the largest change of a value.** -/
theorem largestChange_change :
    LargestChange values (round c reward states values) (change c reward states values) := by
  have among : ∀ list : List (Fin n), (∀ s ∈ list, s ∈ states) →
      LargestAmong values (round c reward states values) list (list.foldl (joinChange c reward values) 0) := by
    intro list
    induction list using List.reverseRecOn with
    | nil => exact fun _ => ⟨.inl ⟨rfl, by simp⟩, by simp⟩
    | append_singleton list s ih =>
      intro mem
      rw [List.foldl_append, List.foldl_cons, List.foldl_nil]
      exact (ih fun t ht => mem t (List.mem_append_left _ ht)).append (mem s (by simp))
  obtain ⟨attained, largest⟩ := among states.toList fun s => StateSet.mem_toList.mp
  have inside {s : Fin n} (changed : Changed values (round c reward states values) s) : s ∈ states.toList := by
    by_contra outside
    exact not_changed_of_eq (get_round_of_not_mem fun hs => outside (StateSet.mem_toList.mpr hs)) changed
  refine ⟨?_, fun s _ changed => largest s (inside changed) changed⟩
  rcases attained with ⟨zero, none⟩ | ⟨s, -, changed, eq⟩
  · exact .inl ⟨zero, fun s _ changed => none s (inside changed) changed⟩
  · exact .inr ⟨s, List.mem_finRange s, changed, eq⟩

/-- Values settle after the least number of rounds whose change is within the precision. -/
theorem settles_iff_isLeast {k : Checker Float} {first : Vector Float n} {rounds : ℕ} :
    k.Settles c reward states first rounds ↔
      IsLeast {j | 1 ≤ j ∧ change c reward states (table c reward states first (j - 1)) ≤ k.precision} rounds := by
  constructor
  · rintro ⟨pos, settled, unsettled⟩
    refine ⟨⟨pos, settled⟩, fun j ⟨one, small⟩ => ?_⟩
    by_contra fewer
    refine unsettled (j - 1) (by omega) ?_
    exact small
  · rintro ⟨⟨pos, settled⟩, least⟩
    refine ⟨pos, settled, fun j fewer small => ?_⟩
    have : rounds ≤ j + 1 := least ⟨by omega, small⟩
    omega

/-- No number of rounds within a limit settles the values iff no change within it is within the precision. -/
theorem forall_not_settles_iff {k : Checker Float} {first : Vector Float n} {limit : ℕ} :
    (∀ rounds ≤ limit, ¬ k.Settles c reward states first rounds) ↔ ∀ j, 1 ≤ j → j ≤ limit →
      ¬ change c reward states (table c reward states first (j - 1)) ≤ k.precision := by
  classical
  constructor
  · intro never j one le small
    have some : ∃ j, 1 ≤ j ∧ change c reward states (table c reward states first (j - 1)) ≤ k.precision :=
      ⟨j, one, small⟩
    refine never (Nat.find some) ((Nat.find_min' some ⟨one, small⟩).trans le) ?_
    exact settles_iff_isLeast.mpr ⟨Nat.find_spec some, fun j small => Nat.find_min' some small⟩
  · rintro large rounds le ⟨pos, settled, -⟩
    exact large rounds pos le settled

/-- Values that are found round by round: in a round, all states of a set take their reward plus the
probability-weighted sum of the values that their successors had before, and the other values stay.  The numbers
`d` are the largest changes of the rounds.  The values are those after the first round whose change is within the
precision, unless the limit is reached before. -/
structure RoundByRound (k : Checker Float) (c : Chain Float n) (reward : Fin n → Float) (states : StateSet n)
    (first : Vector Float n) (d : ℕ → Float) : Prop where
  replaced : ∀ values s, s ∈ states → (round c reward states values).get s =
    reward s + (c.row s).foldl (fun sum e => sum + e.prob * values.get e.next) (-0.0)
  kept : ∀ values s, s ∉ states → (round c reward states values).get s = values.get s
  changes : ∀ j, LargestChange ((round c reward states)^[j] first) ((round c reward states)^[j + 1] first)
    (d (j + 1))
  ok_iff : ∀ r, k.values c reward states first = .ok r ↔ ∃ j ≤ k.maxIterations,
    IsLeast {j | 1 ≤ j ∧ d j ≤ k.precision} j ∧ r = .quantitative ((round c reward states)^[j] first)
  error_iff : ∀ e, k.values c reward states first = .error e ↔
    (∀ j, 1 ≤ j → j ≤ k.maxIterations → ¬ d j ≤ k.precision) ∧ e = .noConvergence k.maxIterations
  returned : ∀ w, k.values c reward states first = .ok (.quantitative w) → ∀ s, s ∉ states →
    w.get s = first.get s

/-- **Values are found round by round**, although two tables take turns. -/
theorem roundByRound_values (k : Checker Float) (c : Chain Float n) (reward : Fin n → Float)
    (states : StateSet n) (first : Vector Float n) : ∃ d, RoundByRound k c reward states first d := by
  refine ⟨fun j => change c reward states (table c reward states first (j - 1)), ?_⟩
  constructor
  case replaced => exact fun values s hs => get_round_of_mem hs
  case kept => exact fun values s hs => get_round_of_not_mem hs
  case changes =>
    intro j
    rw [Function.iterate_succ_apply']
    exact largestChange_change
  case ok_iff =>
    intro r
    simp only [← settles_iff_isLeast]
    exact values_eq_ok
  case error_iff =>
    intro e
    rw [← forall_not_settles_iff]
    exact values_eq_error
  case returned =>
    intro w answered s hs
    obtain ⟨rounds, -, -, same⟩ := values_eq_ok.mp answered
    cases same
    exact get_table_of_not_mem hs rounds

/-- A coin is tossed until it shows heads.  The fourth round is the first that changes their chance by no more
than a tenth, so with a limit of three rounds there is no answer. -/
example :
    let c : Chain Float 2 := ⟨⟨0, by decide⟩, #v[[⟨0, 0.5⟩, ⟨1, 0.5⟩], [⟨1, 1⟩]], .empty 2, none⟩
    let answer (limit : ℕ) :=
      (⟨0.1, limit⟩ : Checker Float).values c (fun _ => 0) (.ofFn (·.val == 0)) #v[0, 1]
    (answer 4).toOption.bind (·.value? 0) = some 0.9375 ∧ (answer 3).toOption.isNone = true := by
  decide +kernel

end Checker

end HoleBlame
