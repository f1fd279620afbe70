import HoleBlame.Decimal.Reader
import HoleBlame.Proofs.Written

/-!
# What literals are made of

Text that can be read as a number is written in letters, digits, signs and points of ASCII
(`Decimal.isLiteral_of_readFloat`).  So it has no blanks in it, and none of the characters that set numbers off
from each other in a file: it is found again between commas, brackets and blanks.
-/

namespace HoleBlame

namespace Decimal

open Text

/-- A letter, a digit, a sign or a point. -/
def isLiteral (c : Char) : Bool :=
  c.isAlphanum || c ∈ ['+', '-', '.']

variable {c : Char} {text : List Char} {x : Float}

theorem isLiteral_of_isDigit (h : c.isDigit = true) : isLiteral c = true := by
  simp [isLiteral, Char.isAlphanum, h]

theorem isLiteral_of_isAlpha (h : c.isAlpha = true) : isLiteral c = true := by
  simp [isLiteral, Char.isAlphanum, h]

theorem isAlpha_of_toLower (h : c.toLower.isLower = true) : c.isAlpha = true := by
  by_cases upper : c.isUpper = true
  · exact Bool.or_eq_true_iff.mpr (.inl upper)
  · have same : c.toLower = c := dif_neg fun range => upper (decide_eq_true range)
    exact Bool.or_eq_true_iff.mpr (.inr (same ▸ h))

/-- A word in any case is written in letters. -/
theorem isLiteral_of_map_toLower {word : List Char} (letters : word.all Char.isLower = true)
    (h : text.map Char.toLower = word) : ∀ c ∈ text, isLiteral c = true := by
  intro c hc
  have lower : c.toLower ∈ word := h ▸ List.mem_map_of_mem hc
  exact isLiteral_of_isAlpha (isAlpha_of_toLower (List.all_eq_true.mp letters _ lower))

theorem isLiteral_of_readExponent {e : ℤ} (h : readExponent text = some e) :
    ∀ c ∈ text, isLiteral c = true := by
  have digits {digits : List Char} (h : readExponent.unsigned digits ≠ none) :
      ∀ c ∈ digits, isLiteral c = true := by
    unfold readExponent.unsigned at h
    split at h
    · next all => exact fun c hc => isLiteral_of_isDigit (List.all_eq_true.mp all.2 c hc)
    · exact absurd rfl h
  unfold readExponent at h
  split at h
  · exact fun c hc => absurd hc List.not_mem_nil
  · split at h
    · next letter =>
      refine List.forall_mem_cons.mpr ⟨by rcases letter with rfl | rfl <;> decide, ?_⟩
      split at h
      · exact List.forall_mem_cons.mpr ⟨by decide, digits fun none => by rw [none] at h; cases h⟩
      · exact List.forall_mem_cons.mpr ⟨by decide, digits fun none => by rw [none] at h; cases h⟩
      · exact digits fun none => by rw [none] at h; cases h
    · cases h

theorem isLiteral_of_readUnsigned {d : Decimal} (h : readUnsigned text = some d) :
    ∀ c ∈ text, isLiteral c = true := by
  have run {text : List Char} : ∀ c ∈ text.takeWhile Char.isDigit, isLiteral c = true :=
    fun c hc => isLiteral_of_isDigit (List.mem_takeWhile_imp hc)
  have exponent {rest : List Char} {e : ℤ → Decimal} {none : Prop} [Decidable none]
      (h : (if none then Option.none else (readExponent rest).map e) = some d) :
      ∀ c ∈ rest, isLiteral c = true := by
    split at h
    · cases h
    · obtain ⟨e, he, -⟩ := Option.map_eq_some_iff.mp h
      exact isLiteral_of_readExponent he
  unfold readUnsigned splitDigits at h
  rw [← List.takeWhile_append_dropWhile (p := Char.isDigit) (l := text)]
  refine List.forall_mem_append.mpr ⟨run, ?_⟩
  simp only at h
  split at h
  · next rest point =>
    rw [point, ← List.takeWhile_append_dropWhile (p := Char.isDigit) (l := rest)]
    exact List.forall_mem_cons.mpr ⟨by decide, List.forall_mem_append.mpr ⟨run, exponent h⟩⟩
  · exact exponent h

theorem isLiteral_of_readMagnitude (h : readMagnitude text = some x) :
    ∀ c ∈ text, isLiteral c = true := by
  unfold readMagnitude at h
  simp only at h
  split at h
  · next infinite =>
    rcases infinite with word | word
    · exact isLiteral_of_map_toLower (by decide) word
    · exact isLiteral_of_map_toLower (by decide) word
  · split at h
    · next word => exact isLiteral_of_map_toLower (by decide) word
    · obtain ⟨d, hd, -⟩ := Option.map_eq_some_iff.mp h
      exact isLiteral_of_readUnsigned hd

/-- **A literal is written in letters, digits, signs and points.** -/
theorem isLiteral_of_readFloat (h : readFloat text = .ok x) : ∀ c ∈ text, isLiteral c = true := by
  have magnitude {text : List Char} {f : Float → Float} (h : (readMagnitude text).elim
      (.error .invalid) (fun x => .ok (f x)) = (.ok x : Except FloatError Float)) :
      ∀ c ∈ text, isLiteral c = true := by
    cases read : readMagnitude text with
    | none => rw [read] at h; cases h
    | some y => exact isLiteral_of_readMagnitude read
  unfold readFloat at h
  split at h
  · cases h
  · exact List.forall_mem_cons.mpr ⟨by decide, magnitude h⟩
  · exact List.forall_mem_cons.mpr ⟨by decide, magnitude (f := id) h⟩
  · exact magnitude (f := id) h

theorem toNat_of_isAlphanum (h : c.isAlphanum = true) : 33 ≤ c.toNat ∧ c.toNat ≤ 126 := by
  have wider {low high : UInt32} (above : 33 ≤ low.toNat) (below : high.toNat ≤ 126)
      (h : low ≤ c.val ∧ c.val ≤ high) : 33 ≤ c.toNat ∧ c.toNat ≤ 126 :=
    ⟨Nat.le_trans above (UInt32.le_iff_toNat_le.mp h.1),
      Nat.le_trans (UInt32.le_iff_toNat_le.mp h.2) below⟩
  have both {p q : Prop} [Decidable p] [Decidable q] (h : (decide p && decide q) = true) : p ∧ q :=
    (Bool.and_eq_true_iff.mp h).imp of_decide_eq_true of_decide_eq_true
  rcases Bool.or_eq_true_iff.mp h with alpha | digit
  · rcases Bool.or_eq_true_iff.mp alpha with upper | lower
    · exact wider (by decide) (by decide) (of_decide_eq_true upper)
    · exact wider (by decide) (by decide) (both lower)
  · exact wider (by decide) (by decide) (both digit)

theorem isBlank_of_isLiteral (h : isLiteral c = true) : isBlank c = false := by
  refine Drn.isBlank_of_toNat ?_
  rcases Bool.or_eq_true_iff.mp h with letter | other
  · exact toNat_of_isAlphanum letter
  · have all : ∀ c ∈ ['+', '-', '.'], 33 ≤ c.toNat ∧ c.toNat ≤ 126 := by simp
    exact all c (of_decide_eq_true other)

theorem solid_of_readFloat (h : readFloat text = .ok x) : Solid text :=
  fun c hc => isBlank_of_isLiteral (isLiteral_of_readFloat h c hc)

theorem not_mem_of_readFloat (h : readFloat text = .ok x) (other : isLiteral c = false) :
    c ∉ text := by
  intro hc
  rw [isLiteral_of_readFloat h c hc] at other
  cases other

theorem ne_nil_of_readFloat (h : readFloat text = .ok x) : text ≠ [] := by
  rintro rfl
  cases h

end Decimal

end HoleBlame
